import Moxide.Theorems.Futex.Base

/-! As long as no record of the futex table changes its key, each belongs to a sleeper on the queue of its bucket. -/

namespace Moxide.Futex
open Lib State List Option
open Sync (Sys WakeReason WaitCall WaitQueue)

/-- Thread `t` is registered under `k` and sleeps on queue `wq` for `bitset`, or is on its way there or back. -/
def SleepsOn (s : State) (t : Nat) (k : FutexKey) (wq : Nat) (bitset : UInt32) : Prop :=
  ∃ sl, (s.threads t).pc.sleep = some sl ∧ sl.key = k ∧ sl.wq = wq ∧ sl.bitset = bitset

/-- The records are those of the sleepers, and a sleeper's `wait` is on the queue it registered with. -/
structure Records (s : State) : Prop where
  sleeps : ∀ k b w, s.table k = some b → w ∈ b.waiters → SleepsOn s w.pid k b.wq w.bitset
  calls : ∀ t sl c pt, (s.threads t).pc = .asleep sl → (s.sync.procs t).wait = some (c, pt) →
    c.queue = sl.wq ∧ c.interest = sl.bitset

theorem records_init (mem : FutexKey → Word) : Records (.init mem) where
  sleeps := by
    intro k b w hb
    cases hb
  calls := by
    intro t sl c pt hpc
    cases hpc

def SameCalls (s s' : State) : Prop :=
  ∀ t sl c pt, (s.threads t).pc = .asleep sl → (s'.sync.procs t).wait = some (c, pt) →
    ∃ pt', (s.sync.procs t).wait = some (c, pt')

theorem SameCalls.of_eq {s s' : State} (h : s'.sync.procs = s.sync.procs) : SameCalls s s' := by
  intro t sl c pt _ hw
  rw [h] at hw
  exact ⟨pt, hw⟩

/-- Every thread is where it was, and no record is new. -/
structure Kept (s s' : State) : Prop where
  table : Shrinks s s'
  threads : s'.threads = s.threads
  calls : SameCalls s s'

theorem Kept.of_eq {s s' : State}
    (h : (s'.table, s'.threads, s'.sync.procs) = (s.table, s.threads, s.sync.procs)) : Kept s s' := by
  simp only [Prod.mk.injEq] at h
  exact ⟨.of_eq h.1, h.2.1, .of_eq h.2.2⟩

section Updates
variable {s s' : State}

section
variable (h : Records s)
include h

theorem Records.no_record {t : Nat} (ht : (s.threads t).pc.sleep = none) {k : FutexKey} {b : FutexBucket}
    {w : Waiter} (hb : s.table k = some b) (hw : w ∈ b.waiters) : w.pid ≠ t := by
  rintro rfl
  obtain ⟨sl, hsl, -⟩ := h.sleeps k b w hb hw
  rw [ht] at hsl
  cases hsl

theorem Records.move {t : Nat} (hothers : ∀ u, u ≠ t → (s'.threads u).pc = (s.threads u).pc) (htable : Shrinks s s')
    (ht : (s'.threads t).pc.sleep = (s.threads t).pc.sleep ∨
      ∀ k b w, s'.table k = some b → w ∈ b.waiters → w.pid ≠ t)
    (hpc : ∀ sl, (s'.threads t).pc ≠ .asleep sl) (hcalls : SameCalls s s') : Records s' where
  sleeps k b w hb hw := by
    obtain ⟨b₀, hb₀, hwq, hsub⟩ := htable k b hb
    obtain ⟨sl, hsl, h1, h2, h3⟩ := h.sleeps k b₀ w hb₀ (hsub w hw)
    refine ⟨sl, ?_, h1, h2.trans hwq, h3⟩
    by_cases hwt : w.pid = t
    · rcases ht with ht | ht
      · rw [hwt, ht, ← hwt]
        exact hsl
      · exact absurd hwt (ht k b w hb hw)
    · rw [hothers w.pid hwt]
      exact hsl
  calls u sl c pt hu hw := by
    have hut : u ≠ t := by
      rintro rfl
      exact hpc sl hu
    rw [hothers u hut] at hu
    obtain ⟨pt', hw'⟩ := hcalls u sl c pt hu hw
    exact h.calls u sl c pt' hu hw'

theorem Records.setThread {t : Nat} {th : Thread} (hk : Kept s s') (ht : (s.threads t).pc.sleep = none)
    (hpc : th.pc.sleep = none) : Records { s' with threads := Function.update s'.threads t th } := by
  refine h.move (t := t) (fun u hu => ?_) hk.table (.inl ?_) (fun sl hsl => ?_) hk.calls
  · rw [threads_update, if_neg hu, hk.threads]
  · rw [threads_update, if_pos rfl, ht, hpc]
  · rw [threads_update, if_pos rfl] at hsl
    rw [hsl] at hpc
    cases hpc

theorem Records.goto {t : Nat} {pc : Pc} (hk : Kept s s') (ht : (s.threads t).pc.sleep = none)
    (hpc : pc.sleep = none) : Records (s'.goto t pc) := h.setThread hk ht hpc

theorem Records.leave {t : Nat} {ret : Int} (hk : Kept s s') (ht : (s.threads t).pc.sleep = none) :
    Records (s'.leave t ret) := h.setThread hk ht rfl

theorem Records.register {t : Nat} {kind : WaitKind} {k : FutexKey} {bitset : UInt32}
    {deadline : Option UInt64} (ht : (s.threads t).pc.sleep = none) :
    Records (s.register t kind k bitset deadline) := by
  have hpc : ∀ u, ((s.register t kind k bitset deadline).threads u).pc =
      if u = t then .enter ⟨kind, k, (s.entry k).2.wq, bitset, deadline⟩ else (s.threads u).pc := by
    intro u
    unfold State.register
    rw [threads_goto]
    show (if u = t then _ else ((s.entry k).1.threads u).pc) = _
    rw [entry_threads]
  refine ⟨fun k' b w hb hw => ?_, fun u sl c pt hu hw => ?_⟩
  · -- A record is the new one, or one of a bucket that was there.
    change ((s.entry k).1.setBucket k _).table k' = some b at hb
    rw [table_setBucket, entry_table] at hb
    have hold : ∀ b₀, s.table k' = some b₀ → b₀.wq = b.wq → w ∈ b₀.waiters →
        SleepsOn (s.register t kind k bitset deadline) w.pid k' b.wq w.bitset := by
      intro b₀ hb₀ hwq hw₀
      have hne := h.no_record ht hb₀ hw₀
      obtain ⟨sl, hsl, h1, h2, h3⟩ := h.sleeps k' b₀ w hb₀ hw₀
      refine ⟨sl, ?_, h1, h2.trans hwq, h3⟩
      rw [hpc, if_neg hne]
      exact hsl
    split at hb
    · rename_i hk
      subst hk
      cases hb
      rcases mem_append.mp hw with hw | hw
      · rcases entry_cases (s := s) k' with ⟨b₀, hb₀, he⟩ | ⟨-, he⟩
        · rw [he] at hw
          exact hold b₀ hb₀ (by rw [he]) hw
        · rw [he] at hw
          cases hw
      · obtain rfl := mem_singleton.mp hw
        refine ⟨⟨kind, k', (s.entry k').2.wq, bitset, deadline⟩, ?_, rfl, rfl, rfl⟩
        rw [hpc, if_pos rfl]
        rfl
    · exact hold b hb rfl hw
  · rw [hpc] at hu
    split at hu
    · cases hu
    · change ((s.entry k).1.sync.procs u).wait = some (c, pt) at hw
      rw [entry_procs] at hw
      exact h.calls u sl c pt hu hw

end

end Updates

def keepsKeys (s : State) : Event → Bool
  | .step t =>
    match (s.threads t).pc with
    | .requeue src dst count _ =>
      src == dst || (match s.table src with
        | some b => (b.waiters.take count).isEmpty
        | none => true)
    | _ => true
  | _ => true

theorem Shrinks.dropEmpty {s s' : State} (k : FutexKey) (h : Shrinks s s') :
    Shrinks s (match s'.table k with
      | some b => if b.waiters.isEmpty then s'.setBucket k none else s'
      | none => s') := by
  split
  · split
    · intro k' b' hb'
      rw [table_setBucket] at hb'
      split at hb'
      · cases hb'
      · exact h k' b' hb'
    · exact h
  · exact h

theorem Shrinks.requeueInner {s : State} {src dst : FutexKey} {count : Nat}
    (hkeep : src = dst ∨ ∀ b, s.table src = some b → b.waiters.take count = []) :
    Shrinks s (s.requeueInner src dst count) := by
  unfold State.requeueInner
  split
  · exact .of_eq rfl
  rename_i b hb
  have hdrained : Shrinks s (s.setBucket src (some ⟨b.wq, b.waiters.drop count⟩)) :=
    .setBucket hb rfl fun w hw => mem_of_mem_drop hw
  refine Shrinks.dropEmpty src ?_
  split
  · exact hdrained
  rename_i hmoved
  rcases hkeep with rfl | hkeep
  · -- On one key the records are put back at the end of their own bucket.
    have htable : (s.setBucket src (some ⟨b.wq, b.waiters.drop count⟩)).table src =
        some ⟨b.wq, b.waiters.drop count⟩ := by rw [table_setBucket, if_pos rfl]
    rcases entry_cases (s := s.setBucket src (some ⟨b.wq, b.waiters.drop count⟩)) src with ⟨b', hb', he⟩ | ⟨hn, -⟩
    · rw [htable] at hb'
      cases hb'
      rw [he]
      intro k' b'' hb''
      rw [table_setBucket] at hb''
      split at hb''
      · rename_i hk
        subst hk
        cases hb''
        refine ⟨b, hb, rfl, fun w hw => ?_⟩
        rcases mem_append.mp hw with hw | hw
        · exact mem_of_mem_drop hw
        · exact mem_of_mem_take hw
      · exact hdrained k' b'' hb''
    · rw [htable] at hn
      cases hn
  · rw [hkeep b hb] at hmoved
    exact absurd rfl hmoved

theorem requeueInner_frame {s : State} (src dst : FutexKey) (count : Nat) :
    (s.requeueInner src dst count).threads = s.threads ∧
    (s.requeueInner src dst count).sync.procs = s.sync.procs := by
  unfold State.requeueInner
  split
  · exact ⟨rfl, rfl⟩
  have hext : ∀ r : State, r.threads = s.threads ∧ r.sync.procs = s.sync.procs →
      (match r.table src with
        | some b' => if b'.waiters.isEmpty then r.setBucket src none else r
        | none => r).threads = s.threads ∧
      (match r.table src with
        | some b' => if b'.waiters.isEmpty then r.setBucket src none else r
        | none => r).sync.procs = s.sync.procs := by
    intro r hr
    split
    · split <;> exact hr
    · exact hr
  apply hext
  split
  · exact ⟨rfl, rfl⟩
  · exact ⟨entry_threads (s := s.setBucket src _) dst, entry_procs (s := s.setBucket src _) dst⟩

theorem Kept.requeueInner {s : State} {t : Nat} {src dst : FutexKey} {count woken : Nat}
    (hpc : (s.threads t).pc = .requeue src dst count woken) (hok : keepsKeys s (.step t)) :
    Kept s (s.requeueInner src dst count) := by
  unfold keepsKeys at hok
  dsimp only at hok
  rw [hpc] at hok
  refine ⟨.requeueInner ?_, (requeueInner_frame src dst count).1, .of_eq (requeueInner_frame src dst count).2⟩
  rcases Bool.or_eq_true_iff.mp hok with hok | hok
  · exact .inl (beq_iff_eq.mp hok)
  · refine .inr fun b hb => ?_
    rw [hb] at hok
    exact List.isEmpty_iff.mp hok

theorem Kept.wake {s : State} {t wq : Nat} {mask : UInt32} {sync : Sys} (hs : s.sync.step (.wake t wq mask) = some sync) :
    Kept s { s with sync := sync } := by
  refine ⟨.of_eq rfl, rfl, fun u sl c pt _ hw => ?_⟩
  rcases step_call hs hw with hw | he
  · exact hw
  · cases he

theorem Kept.wakePid {s : State} (pid : Nat) : Kept s { s with sync := s.sync.wakePid pid } := by
  refine ⟨.of_eq rfl, rfl, fun u sl c pt _ hw => ?_⟩
  rcases Sync.procs_wakePid (s := s.sync) pid u with hp | ⟨-, -, hp⟩
  · exact ⟨pt, by rw [← hp]; exact hw⟩
  · rw [hp] at hw
    exact ⟨pt, hw⟩

/-! ### Steps -/

section Steps
variable {s s' : State} {ts : Tasks} {deadline : UInt64} {sl : Sleep}

variable {k : FutexKey} {t : Nat}

section
variable (h : Records s)
include h

section
variable (ht : (s.threads t).pc.sleep = none)
include ht

theorem records_wakeSection {count : Nat} {mask : UInt32} {after : Nat → After} :
    Records (s.wakeSection t k count mask after) := by
  unfold State.wakeSection
  split
  · rename_i b hb _
    exact h.goto ⟨.keepBucket hb rfl fun w hw => (select_mem mask b.waiters count).2 w hw, rfl, .of_eq rfl⟩ ht rfl
  · exact h.goto (.of_eq rfl) ht rfl

theorem records_lockFast : Records (s.lockFast t k deadline) := by
  unfold State.lockFast
  split
  · exact h.leave (.of_eq rfl) ht
  split
  · split <;> exact h.leave (.of_eq rfl) ht
  · split
    · exact h.leave (.of_eq rfl) ht
    · exact h.goto (.of_eq rfl) ht rfl

theorem records_lockContend : Records (s.lockContend t k deadline) := by
  unfold State.lockContend
  split
  · exact h.leave (.of_eq rfl) ht
  split
  · exact h.goto (.of_eq rfl) ht rfl
  · split
    · exact h.leave (.of_eq rfl) ht
    · exact h.goto (.of_eq rfl) ht rfl

theorem records_trylock : Records (s.trylock t k) := by
  unfold State.trylock
  repeat' split
  all_goals exact h.leave (.of_eq rfl) ht

theorem records_unlockHand : Records (s.unlockHand t k) := by
  unfold State.unlockHand
  split
  · split <;> exact h.leave (.of_eq rfl) ht
  · split <;> exact h.leave (.of_eq rfl) ht
  · split
    · exact h.leave (.of_eq rfl) ht
    · exact h.goto (.of_eq rfl) ht rfl

end

theorem Records.forget_none (ht : (s.threads t).pc.sleep = some sl) {b : FutexBucket}
    {w : Waiter} (hb : (s.forget sl.key t).table k = some b) (hw : w ∈ b.waiters) : w.pid ≠ t := by
  intro hwt
  obtain ⟨b₀, hb₀, -, hsub⟩ := Shrinks.forget (s := s) sl.key t k b hb
  obtain ⟨sl', hsl', hkey, -⟩ := h.sleeps k b₀ w hb₀ (hsub w hw)
  rw [hwt, ht] at hsl'
  cases hsl'
  subst hkey
  exact forget_pid hb hw hwt

theorem records_tidyTable {reason : WakeReason} (hpc : (s.threads t).pc = .tidyTable sl reason) :
    (∀ ret, Records ((s.forget sl.key t).leave t ret)) ∧
    ∀ pc : Pc, pc.sleep = none → Records ((s.forget sl.key t).goto t pc) := by
  have hsleep : (s.threads t).pc.sleep = some sl := by rw [hpc]; rfl
  have hcalls : SameCalls s (s.forget sl.key t) := .of_eq (by rw [forget_sync])
  refine ⟨fun ret => ?_, fun pc hpc' => ?_⟩
  · refine h.move (t := t) (fun u hu => ?_) (Shrinks.forget (s := s) sl.key t)
      (.inr fun k b w hb hw => h.forget_none hsleep hb hw) (fun sl' hsl' => ?_) hcalls
    · rw [threads_leave, if_neg hu, forget_threads]
    · rw [threads_leave, if_pos rfl] at hsl'
      cases hsl'
  · refine h.move (t := t) (fun u hu => ?_) (Shrinks.forget (s := s) sl.key t)
      (.inr fun k b w hb hw => h.forget_none hsleep hb hw) (fun sl' hsl' => ?_) hcalls
    · rw [threads_goto, if_neg hu, forget_threads]
    · rw [threads_goto, if_pos rfl] at hsl'
      rw [hsl'] at hpc'
      cases hpc'

theorem records_enter {sync : Sys} {c : WaitCall}
    (hpc : (s.threads t).pc = .enter sl) (hc : c.queue = sl.wq ∧ c.interest = sl.bitset)
    (hs : s.sync.step (.wait t c) = some sync) : Records ({ s with sync := sync }.goto t (.asleep sl)) := by
  obtain rfl := Sync.step_wait hs
  refine ⟨fun k b w hb hw => ?_, fun u sl' c' pt hu hw => ?_⟩
  · obtain ⟨sl', hsl', h1, h2, h3⟩ := h.sleeps k b w hb hw
    refine ⟨sl', ?_, h1, h2, h3⟩
    rw [threads_goto]
    split
    · rename_i hwt
      rw [hwt, hpc] at hsl'
      exact hsl'
    · exact hsl'
  · rw [threads_goto] at hu
    change ((s.sync.goto t c .load).procs u).wait = some (c', pt) at hw
    unfold Sys.goto at hw
    rw [Sync.procs_setProc] at hw
    split_ifs at hu hw
    · cases hu
      cases hw
      exact hc
    · exact h.calls u sl' c' pt hu hw

theorem records_asleep {reason : WakeReason} (hpc : (s.threads t).pc = .asleep sl) :
    Records (s.goto t (.tidyTable sl reason)) := by
  refine h.move (t := t) (fun u hu => ?_) (.of_eq rfl) (.inl ?_) (fun sl' hsl' => ?_) (.of_eq rfl)
  · rw [threads_goto, if_neg hu]
  · rw [threads_goto, if_pos rfl, hpc]
    rfl
  · rw [threads_goto, if_pos rfl] at hsl'
    cases hsl'

/-! The calls that read the word before anything else. -/

section
variable (hs : s.threadStep ts t = some s')
include hs

theorem records_waitBitset {expected bitset : UInt32} {deadline : Option UInt64}
    (hpc : (s.threads t).pc = .waitBitset k expected bitset deadline) : Records s' := by
  have ht : (s.threads t).pc.sleep = none := by rw [hpc]; rfl
  simp only [State.threadStep, hpc] at hs
  repeat' split at hs
  all_goals cases hs
  · exact h.leave (.of_eq rfl) ht
  · exact h.leave (.of_eq rfl) ht
  · exact h.leave (.of_eq rfl) ht
  · exact h.register ht

theorem records_cmpRequeue {expected : UInt32} {count m : Nat} {dst : FutexKey}
    (hpc : (s.threads t).pc = .cmpRequeue k expected count dst m) : Records s' := by
  have ht : (s.threads t).pc.sleep = none := by rw [hpc]; rfl
  simp only [State.threadStep, hpc] at hs
  repeat' split at hs
  all_goals cases hs
  · exact h.leave (.of_eq rfl) ht
  · exact h.leave (.of_eq rfl) ht
  · exact h.goto (.of_eq rfl) ht rfl

theorem records_lockRead (hpc : (s.threads t).pc = .lockRead k deadline) : Records s' := by
  have ht : (s.threads t).pc.sleep = none := by rw [hpc]; rfl
  simp only [State.threadStep, hpc] at hs
  repeat' split at hs
  all_goals cases hs
  · exact h.leave (.of_eq rfl) ht
  · exact h.goto (.of_eq rfl) ht rfl
  · exact h.leave (.of_eq rfl) ht
  · exact h.goto (.of_eq rfl) ht rfl

theorem records_unlock (hpc : (s.threads t).pc = .unlock k) : Records s' := by
  have ht : (s.threads t).pc.sleep = none := by rw [hpc]; rfl
  simp only [State.threadStep, hpc] at hs
  repeat' split at hs
  all_goals cases hs
  · exact h.leave (.of_eq rfl) ht
  · exact h.leave (.of_eq rfl) ht
  · exact h.goto (.of_eq rfl) ht rfl

end

theorem records_threadStep (hok : keepsKeys s (.step t)) (hs : s.threadStep ts t = some s') : Records s' := by
  have hstep := hs
  unfold State.threadStep at hs
  split at hs
  · cases hs
  · exact records_waitBitset h hstep ‹_›
  · -- `enter`
    rename_i sl hpc
    obtain ⟨sync, hsync, rfl⟩ := map_eq_some_iff.mp hs
    exact records_enter h hpc ⟨rfl, rfl⟩ hsync
  · -- `asleep`
    rename_i sl hpc
    split at hs <;> cases hs
    exact records_asleep h hpc
  · -- `tidyTable`
    rename_i sl reason hpc
    split at hs <;> cases hs
    · exact (records_tidyTable h hpc).1 _
    · exact (records_tidyTable h hpc).2 _ rfl
  · -- `tidyChain`
    rename_i k reason hpc
    have ht : (s.threads t).pc.sleep = none := by rw [hpc]; rfl
    split at hs <;> split at hs <;> cases hs <;> exact h.leave (.of_eq rfl) ht
  · -- `wakeBitset`
    rename_i hpc
    cases hs
    exact records_wakeSection h (by rw [hpc]; rfl)
  · -- `waking`, a wake call starts
    rename_i wq mask left after hpc
    obtain ⟨sync, hsync, rfl⟩ := map_eq_some_iff.mp hs
    exact h.goto (.wake hsync) (by rw [hpc]; rfl) rfl
  · -- `inWake`
    rename_i hpc
    split at hs <;> cases hs
    exact h.goto (.of_eq rfl) (by rw [hpc]; rfl) rfl
  · rename_i hpc
    cases hs
    exact h.leave (.of_eq rfl) (by rw [hpc]; rfl)
  · rename_i hpc
    cases hs
    exact h.goto (.of_eq rfl) (by rw [hpc]; rfl) rfl
  · rename_i hpc
    cases hs
    exact h.leave (.of_eq rfl) (by rw [hpc]; rfl)
  · exact records_cmpRequeue h hstep ‹_›
  · -- `requeue`
    rename_i src dst count woken hpc
    cases hs
    exact h.leave (.requeueInner hpc hok) (by rw [hpc]; rfl)
  · exact records_lockRead h hstep ‹_›
  · rename_i hpc
    cases hs
    exact records_lockFast h (by rw [hpc]; rfl)
  · rename_i hpc
    cases hs
    exact records_lockContend h (by rw [hpc]; rfl)
  · -- `lockTable`
    rename_i hpc
    cases hs
    exact h.register (by rw [hpc]; rfl)
  · rename_i hpc
    cases hs
    exact records_trylock h (by rw [hpc]; rfl)
  · exact records_unlock h hstep ‹_›
  · rename_i hpc
    cases hs
    exact records_unlockHand h (by rw [hpc]; rfl)
  · -- `unlockTable`
    rename_i k successor hpc
    cases hs
    exact h.goto ⟨.forget k successor, forget_threads k successor, .of_eq (by rw [forget_sync])⟩ (by rw [hpc]; rfl) rfl
  · -- `unlockFind`
    rename_i k successor hpc
    have ht : (s.threads t).pc.sleep = none := by rw [hpc]; rfl
    split at hs <;> cases hs
    · exact h.goto (.of_eq rfl) ht rfl
    · exact h.leave (.wakePid successor) ht

theorem records_step {e : Event} (hok : keepsKeys s e) (hs : s.step ts e = some s') : Records s' := by
  unfold State.step at hs
  cases e with
  | syscall t args =>
    dsimp only at hs
    split at hs
    · rename_i hidle
      have ht : (s.threads t).pc.sleep = none := by rw [hidle.1]; rfl
      split at hs <;> cases hs
      · rename_i pc hpc
        exact h.goto (.of_eq rfl) ht (sysFutex_plain hpc).1
      · exact h.leave (.of_eq rfl) ht
    · cases hs
  | step t => exact records_threadStep h hok hs
  | sync e =>
    dsimp only at hs
    split at hs
    · rename_i hallow
      obtain ⟨sync, hsync, rfl⟩ := map_eq_some_iff.mp hs
      refine ⟨h.sleeps, fun t sl c pt hpc hw => ?_⟩
      rcases step_call hsync hw with ⟨pt', hw'⟩ | rfl
      · exact h.calls t sl c pt' hpc hw'
      · -- A task that sleeps in a futex call starts no other `wait`.
        change (s.threads t).pc = .asleep sl at hpc
        simp [State.allows, hpc] at hallow
    · cases hs
  | tick now =>
    dsimp only at hs
    split at hs <;> cases hs
    exact ⟨h.sleeps, h.calls⟩
  | setPrio t p | store k v | remap k r w =>
    cases hs
    exact ⟨h.sleeps, h.calls⟩

end

end Steps

/-! ### Runs -/

/-- What the futex calls rely on: each record belongs to a sleeper on the queue of its bucket, a wake calls `wake`
    on the queue on which every waiter that it selects sleeps, with bits that it waits for, and a thread that has
    returned has left no record. -/
structure Wakeable (ts : Tasks) (s : State) : Prop where
  sleeps : ∀ k b w, s.table k = some b → w ∈ b.waiters → SleepsOn s w.pid k b.wq w.bitset ∧
    ∀ sl c pt, (s.threads w.pid).pc = .asleep sl → (s.sync.procs w.pid).wait = some (c, pt) →
      c.queue = b.wq ∧ c.interest = w.bitset
  woken : ∀ t k count mask requeue s' b w, (s.threads t).pc = .wakeBitset k count mask requeue → mask ≠ 0 →
    s.threadStep ts t = some s' → s.table k = some b → w ∈ (select mask count b.waiters).1 →
    (∃ wq after, (s'.threads t).pc = .waking wq mask (select mask count b.waiters).1.length after ∧
      SleepsOn s w.pid k wq w.bitset) ∧ w.bitset &&& mask ≠ 0
  gone : ∀ t k b w, (s.threads t).pc = .idle → s.table k = some b → w ∈ b.waiters → w.pid ≠ t

theorem wakeSection_pc {s : State} {t : Nat} {k : FutexKey} {count : Nat} {mask : UInt32} {b : FutexBucket}
    (hb : s.table k = some b) (hmask : mask ≠ 0) (after : Nat → After) :
    ((s.wakeSection t k count mask after).threads t).pc =
      .waking b.wq mask (select mask count b.waiters).1.length (after (select mask count b.waiters).1.length) := by
  unfold State.wakeSection
  rw [hb, show (mask == 0) = false from beq_false_of_ne hmask]
  rw [threads_goto, if_pos rfl]

theorem Records.wakeable {s : State} (h : Records s) (ts : Tasks) : Wakeable ts s where
  sleeps k b w hb hw := by
    obtain ⟨sl, hsl, h1, h2, h3⟩ := h.sleeps k b w hb hw
    refine ⟨⟨sl, hsl, h1, h2, h3⟩, fun sl' c pt hpc hwait => ?_⟩
    rw [hpc] at hsl
    cases hsl
    obtain ⟨hq, hi⟩ := h.calls w.pid sl c pt hpc hwait
    exact ⟨hq.trans h2, hi.trans h3⟩
  woken t k count mask requeue s' b w hpc hmask hs hb hw := by
    obtain ⟨hmem, hbits⟩ := (select_mem mask b.waiters count).1 w hw
    refine ⟨⟨b.wq, ?_⟩, hbits⟩
    unfold State.threadStep at hs
    rw [hpc] at hs
    cases hs
    exact ⟨_, wakeSection_pc hb hmask _, h.sleeps k b w hb hmem⟩
  gone t k b w hpc hb hw := h.no_record (by rw [hpc]; rfl) hb hw

/-- In every run in which no requeue moves a record to another key, every waiter stays wakeable. -/
theorem futex_wakeable (ts : Tasks) (mem : FutexKey → Word) {s : State}
    (h : Reach (fun s e s' => s.step ts e = some s') (fun s e => keepsKeys s e = true) (.init mem) s) :
    Wakeable ts s := by
  have hrec : Records s := h.invariant (records_init mem) fun _ _ _ hi hok hs => records_step hi hok hs
  exact hrec.wakeable ts

def oneGroup : Tasks := ⟨fun _ => 1, fun _ => false⟩

def zeroWords : FutexKey → Word := fun _ => ⟨0, true, true⟩

/-- The call `FUTEX_WAIT(uaddr, 0)` of thread `t`, up to the point where it is blocked. -/
def waitOn (t uaddr : Nat) : List Event :=
  [.syscall t ⟨uaddr, 0, 0, 0, 0, 0, none⟩, .step t, .step t] ++ List.replicate 7 (.sync (.task t 0))

/-- A wake of thread `t` goes through a queue with `n` waiters, and the thread goes on. -/
def wakeCall (t n : Nat) : List Event :=
  [.step t, .step t] ++ List.replicate (n + 5) (.sync (.waker t)) ++ [.step t, .step t]

def waitWakeRun : Option State :=
  Reach.run (State.step oneGroup) keepsKeys (.init zeroWords)
    (waitOn 1 0x1000 ++ waitOn 2 0x1000 ++ [.syscall 3 ⟨0x1000, 1, 1, 0, 0, 0, none⟩] ++ wakeCall 3 2)

theorem futex_wakeable_left :
    ∃ s, waitWakeRun = some s ∧ s.table ⟨1, 0x1000⟩ = some ⟨0, [⟨2, 0xFFFFFFFF⟩]⟩ ∧ Wakeable oneGroup s := by
  have hleft : (waitWakeRun.bind fun s => s.table ⟨1, 0x1000⟩) = some ⟨0, [⟨2, 0xFFFFFFFF⟩]⟩ := by decide
  obtain ⟨s, hs, hb⟩ := bind_eq_some_iff.mp hleft
  exact ⟨s, hs, hb, futex_wakeable oneGroup zeroWords (Reach.of_run _ .start hs)⟩

/-- Threads 1 and 2 wait on one word; thread 3 wakes one and requeues the other to a second word; thread 2 returns. -/
def requeueRun : Option State :=
  Reach.run (State.step oneGroup) (fun _ _ => true) (.init zeroWords)
    (waitOn 1 0x1000 ++ waitOn 2 0x1000 ++ [.syscall 3 ⟨0x1000, 3, 1, 1, 0x2000, 0, none⟩] ++ wakeCall 3 2 ++
      [.step 3] ++ List.replicate 3 (.sync (.task 2 0)) ++ [.step 2, .step 2])

theorem requeueRun_ends :
    (requeueRun.map fun s => ((s.threads 2).pc, s.table ⟨1, 0x2000⟩)) =
      some (.idle, some ⟨1, [⟨2, 0xFFFFFFFF⟩]⟩) := by decide

/-- The record of thread 2 stays under the second word after the thread has returned. -/
theorem requeued_record_survives :
    ∃ s, Reach (fun s e s' => s.step oneGroup e = some s') (fun _ _ => True) (.init zeroWords) s ∧
      ¬ Wakeable oneGroup s := by
  obtain ⟨s, hs, hend⟩ := map_eq_some_iff.mp requeueRun_ends
  obtain ⟨hpc, htable⟩ := Prod.mk.inj hend
  refine ⟨s, (Reach.of_run _ .start hs).mono fun _ _ _ => trivial, fun hw => ?_⟩
  exact hw.gone 2 _ _ _ hpc htable mem_cons_self rfl

end Moxide.Futex
