import Moxide.Scheduler
import Moxide.Theorems.RunQueue

/-! Runnable tasks are lost only where a `wake_pid` comes between a `block_current` and its removal of the task. -/

namespace Moxide.Scheduler
open Function (update update_apply update_eq_self update_of_ne update_self)
open Lib List

variable {rq rq' : RunQueue} {tasks tasks' : Tasks} {p : Pid} {next : Option Pid} {w : Wake} {elapsed : UInt64}

theorem pids_enqueue (rq : RunQueue) (tasks : Tasks) (p : Pid) : (rq.enqueue tasks p).1.pids.Perm (p :: rq.pids) := by
  refine perm_iff_count.mpr fun q => ?_
  rw [RunQueue.enqueue]
  split <;> simp only [RunQueue.pids, map_append, count_append, map_cons, map_nil, count_cons,
    count_nil] <;> omega

theorem enqueue_onRq (rq : RunQueue) (tasks : Tasks) (p q : Pid) :
    ((rq.enqueue tasks p).2 q).onRq = if q = p then true else (tasks q).onRq := by
  have hupdate : ∀ t : SchedEntity, t.onRq → (update tasks p t q).onRq = if q = p then true else (tasks q).onRq := by
    intro t ht
    by_cases hq : q = p
    · rw [hq, update_self, if_pos rfl, ht]
    · rw [update_of_ne hq, if_neg hq]
  rw [RunQueue.enqueue]
  split
  case h_4 => exact hupdate _ (clampVruntime_fields _ _).1
  case h_5 => exact hupdate _ (clampVruntime_fields _ _).1
  all_goals exact hupdate _ rfl

theorem count_pop {α : Type} {g : α → Pid} {le : α → α → Bool} {l heap : List α} {i : Nat} {e : α}
    (h : pop le l i = some (e, heap)) (q : Pid) :
    (l.map g).count q = (heap.map g).count q + if g e == q then 1 else 0 := by
  obtain ⟨he, -, rfl⟩ := pop_some h
  obtain ⟨hi, rfl⟩ := List.getElem?_eq_some_iff.mp he
  have hperm := ((getElem_cons_eraseIdx_perm hi).map g).count_eq q
  rw [map_cons, count_cons] at hperm
  exact hperm.symm

theorem pids_dequeueNext {i : Nat} (hd : rq.dequeueNext tasks i = some (next, rq', tasks')) :
    (next = none ∧ rq.pids = [] ∧ rq' = rq ∧ tasks' = tasks) ∨
      ∃ p, next = some p ∧ rq.pids.Perm (p :: rq'.pids) ∧ tasks' = update tasks p { tasks p with onRq := false } := by
  simp only [RunQueue.dequeueNext, RunQueue.dequeueDl, RunQueue.dequeueRt, RunQueue.dequeueCfs, RunQueue.dequeueBatch,
    Option.map_map] at hd
  split_ifs at hd with hdl hrt hcfs hbatch hidle
  pick_goal 3
  · obtain ⟨⟨e, heap⟩, hpop, hr⟩ := Option.map_eq_some_iff.mp hd
    cases hr
    refine .inr ⟨e.pid, rfl, perm_iff_count.mpr fun q => ?_, rfl⟩
    have hq := count_pop (g := fun e => e.pid) hpop q
    split <;> simp only [RunQueue.release, RunQueue.pids, count_append, count_cons] <;> omega
  iterate 3
    · obtain ⟨⟨e, heap⟩, hpop, hr⟩ := Option.map_eq_some_iff.mp hd
      cases hr
      refine .inr ⟨e.pid, rfl, perm_iff_count.mpr fun q => ?_, rfl⟩
      have hq := count_pop (g := fun e => e.pid) hpop q
      simp only [RunQueue.pids, count_append, count_cons]
      omega
  · obtain ⟨p, rest, hlist⟩ := exists_cons_of_ne_nil hidle
    simp only [RunQueue.dequeueIdle, hlist, Option.map_some, Option.some.injEq] at hd
    cases hd
    refine .inr ⟨p, rfl, perm_iff_count.mpr fun q => ?_, rfl⟩
    simp only [RunQueue.pids, hlist, count_append, count_cons]
    omega
  · cases hd
    refine .inl ⟨rfl, ?_, rfl, rfl⟩
    simp only [RunQueue.pids, not_not.mp hdl, not_not.mp hrt, not_not.mp hcfs, not_not.mp hbatch, not_not.mp hidle,
      map_nil, append_nil]

/-! ### Places -/

def Wake.Pending (w : Wake) : Prop := w.point = .readOnRq ∨ w.point = .enqueue

/-- Where a task is: on the queue of a CPU, running on a CPU, in the hands of a `wake_pid`, or none of these. -/
inductive Place where
  | queued (c : Nat)
  | running (c : Nat)
  | waking (k : Nat)
  | off
  deriving DecidableEq

def Place.Fits (hasTask : Bool) (state : ProcState) : Place → Prop
  | .queued _ | .waking _ => state = .ready ∧ hasTask = true
  | .running _ => state = .running ∧ hasTask = true
  | .off => hasTask = true → state ≠ .ready ∧ state ≠ .running

namespace State
variable {s t : State} {place : Pid → Place}

def queue (s : State) (c : Nat) : List Pid := (s.cpus c).rq.pids

def Live (s : State) (c : Nat) (p : Pid) : Prop := (s.cpus c).current = some p ∧ (s.cpus c).block = none

def Pend (s : State) (k : Nat) (p : Pid) : Prop := ∃ w, s.wakes[k]? = some w ∧ w.pid = p ∧ w.Pending

structure Placed (s : State) (place : Pid → Place) : Prop where
  cpus : 0 < s.ncpus
  nodup : ∀ c < s.ncpus, (s.queue c).Nodup
  queue : ∀ c < s.ncpus, ∀ p, p ∈ s.queue c ↔ place p = .queued c
  live : ∀ c < s.ncpus, ∀ p, s.Live c p ↔ place p = .running c
  pend : ∀ k p, s.Pend k p ↔ place p = .waking k
  bound : ∀ p c, place p = .queued c ∨ place p = .running c → c < s.ncpus
  onRq : ∀ p, (s.tasks p).onRq = true ↔ ∃ c, place p = .queued c
  fits : ∀ p, (place p).Fits (s.hasTask p) (s.procs p)
  removing : ∀ c < s.ncpus, ∀ p, (s.cpus c).block = some (p, .remove) → place p = .off ∨ ∃ k, place p = .waking k
  cleared : ∀ c < s.ncpus, ∀ p, (s.cpus c).block = some (p, .schedule) → (s.cpus c).current = none

variable {c k i : Nat}

theorem Placed.stay (h : s.Placed place) (hn : t.ncpus = s.ncpus) (htask : t.hasTask = s.hasTask)
    (hqueue : ∀ c, t.queue c = s.queue c) (hlive : ∀ c p, t.Live c p ↔ s.Live c p)
    (hpend : ∀ k p, t.Pend k p ↔ s.Pend k p) (htasks : t.tasks = s.tasks) (hprocs : t.procs = s.procs)
    (hremoving : ∀ c p, (t.cpus c).block = some (p, .remove) → (s.cpus c).block = some (p, .remove))
    (hcleared : ∀ c < s.ncpus, ∀ p, (t.cpus c).block = some (p, .schedule) → (t.cpus c).current = none) :
    t.Placed place where
  cpus := hn ▸ h.cpus
  nodup := fun c hc => hqueue c ▸ h.nodup c (hn ▸ hc)
  queue := fun c hc p => by rw [hqueue]; exact h.queue c (hn ▸ hc) p
  live := fun c hc p => (hlive c p).trans (h.live c (hn ▸ hc) p)
  pend := fun k p => (hpend k p).trans (h.pend k p)
  bound := fun p c hp => hn ▸ h.bound p c hp
  onRq := fun p => by rw [htasks]; exact h.onRq p
  fits := fun p => by rw [htask, hprocs]; exact h.fits p
  removing := fun c hc p hb => h.removing c (hn ▸ hc) p (hremoving c p hb)
  cleared := fun c hc p hb => hcleared c (hn ▸ hc) p hb

theorem Placed.move (h : s.Placed place) (pid : Pid) (x : Place) (hn : t.ncpus = s.ncpus) (htask : t.hasTask = s.hasTask)
    (hnodup : ∀ c < s.ncpus, (t.queue c).Nodup)
    (hqueue : ∀ c < s.ncpus, ∀ p, p ∈ t.queue c ↔ if p = pid then x = .queued c else p ∈ s.queue c)
    (hlive : ∀ c < s.ncpus, ∀ p, t.Live c p ↔ if p = pid then x = .running c else s.Live c p)
    (hpend : ∀ k p, t.Pend k p ↔ if p = pid then x = .waking k else s.Pend k p)
    (hbound : ∀ c, x = .queued c ∨ x = .running c → c < s.ncpus)
    (honRq : ∀ p, (t.tasks p).onRq ↔ if p = pid then ∃ c, x = .queued c else (s.tasks p).onRq)
    (hprocs : ∀ p, p ≠ pid → t.procs p = s.procs p) (hfits : x.Fits (s.hasTask pid) (t.procs pid))
    (hremoving : ∀ c < s.ncpus, ∀ p, (t.cpus c).block = some (p, .remove) →
      if p = pid then x = .off ∨ ∃ k, x = .waking k else (s.cpus c).block = some (p, .remove))
    (hcleared : ∀ c < s.ncpus, ∀ p, (t.cpus c).block = some (p, .schedule) → (t.cpus c).current = none) :
    t.Placed (update place pid x) := by
  refine ⟨hn ▸ h.cpus, fun c hc => hnodup c (hn ▸ hc), fun c hc p => ?_, fun c hc p => ?_, fun k p => ?_,
    fun p c hp => ?_, fun p => ?_, fun p => ?_, fun c hc p hb => ?_, fun c hc => hcleared c (hn ▸ hc)⟩
  · rw [hqueue c (hn ▸ hc), update_apply]
    split
    · rfl
    · exact h.queue c (hn ▸ hc) p
  · rw [hlive c (hn ▸ hc), update_apply]
    split
    · rfl
    · exact h.live c (hn ▸ hc) p
  · rw [hpend, update_apply]
    split
    · rfl
    · exact h.pend k p
  · rw [hn]
    rw [update_apply] at hp
    split at hp
    · exact hbound c hp
    · exact h.bound p c hp
  · rw [honRq, update_apply]
    split
    · rfl
    · exact h.onRq p
  · rw [htask, update_apply]
    split
    case isTrue hp => exact hp ▸ hfits
    case isFalse hp => exact hprocs p hp ▸ h.fits p
  · have hb' := hremoving c (hn ▸ hc) p hb
    rw [update_apply]
    split_ifs at hb' ⊢
    · exact hb'
    · exact h.removing c (hn ▸ hc) p hb'

theorem Placed.not_mem_queue (h : s.Placed place) (hp : ∀ c, place p ≠ .queued c) (hc : c < s.ncpus) :
    p ∉ s.queue c := fun hmem => hp c ((h.queue c hc p).mp hmem)

section Kept
variable {pid : Pid} {x : Place}

/-! Of a task that goes from one place to another, everything that neither place is about stays as it is. -/

variable (h : s.Placed place)
include h

theorem Placed.queue_kept (hold : ∀ c, place pid ≠ .queued c) (hnew : ∀ c, x ≠ .queued c) :
    ∀ c < s.ncpus, ∀ p, p ∈ s.queue c ↔ if p = pid then x = .queued c else p ∈ s.queue c := by
  intro c hc p
  split
  case isTrue hp => exact iff_of_false (hp ▸ h.not_mem_queue hold hc) (hnew c)
  · rfl

theorem Placed.live_kept (hold : ∀ c, place pid ≠ .running c) (hnew : ∀ c, x ≠ .running c) :
    ∀ c < s.ncpus, ∀ p, s.Live c p ↔ if p = pid then x = .running c else s.Live c p := by
  intro c hc p
  split
  case isTrue hp => exact iff_of_false (fun hlive => hold c (hp ▸ (h.live c hc p).mp hlive)) (hnew c)
  · rfl

theorem Placed.pend_kept (hold : ∀ k, place pid ≠ .waking k) (hnew : ∀ k, x ≠ .waking k) :
    ∀ k p, s.Pend k p ↔ if p = pid then x = .waking k else s.Pend k p := by
  intro k p
  split
  case isTrue hp => exact iff_of_false (fun hpend => hold k (hp ▸ (h.pend k p).mp hpend)) (hnew k)
  · rfl

theorem Placed.onRq_kept (hold : ∀ c, place pid ≠ .queued c) (hnew : ∀ c, x ≠ .queued c) :
    ∀ p, (s.tasks p).onRq ↔ if p = pid then ∃ c, x = .queued c else (s.tasks p).onRq := by
  intro p
  split
  case isTrue hp =>
    refine iff_of_false (fun hon => ?_) (fun ⟨c, hc⟩ => hnew c hc)
    obtain ⟨c, hc⟩ := (h.onRq p).mp hon
    exact hold c (hp ▸ hc)
  · rfl

end Kept

/-! ### Parts of a state -/

theorem setProc_procs (s : State) (pid : Pid) (x : ProcState) (p : Pid) :
    (s.setProc pid x).procs p = if p = pid then x else s.procs p := update_apply _ _ _ _

theorem pend_congr (h : t.wakes = s.wakes) (k : Nat) (p : Pid) : t.Pend k p ↔ s.Pend k p := by rw [Pend, Pend, h]

theorem pend_setWake (hk : s.wakes[k]? = some w) (w' : Wake) (j : Nat) (p : Pid) :
    (s.setWake k w').Pend j p ↔ if j = k then w'.pid = p ∧ w'.Pending else s.Pend j p := by
  obtain ⟨hlt, -⟩ := List.getElem?_eq_some_iff.mp hk
  rw [Pend, setWake, Pend]
  by_cases hj : j = k
  · simp [hj, hlt]
  · simp [hj, Ne.symm hj]

structure CpuChange (s t : State) (c : Nat) (x : Cpu) : Prop where
  self : t.cpus c = x
  others : ∀ c', c' ≠ c → t.cpus c' = s.cpus c'

theorem enqueueOn_change (s : State) (c : Nat) (pid : Pid) : CpuChange s (s.enqueueOn c pid) c
    { s.cpus c with rq := ((s.cpus c).rq.enqueue s.tasks pid).1 } :=
  ⟨update_self .., fun _ hc' => update_of_ne hc' _ _⟩

namespace CpuChange
variable {c : Nat} {x : Cpu}

section
variable (h : CpuChange s t c x)
include h

theorem setCpu (y : Cpu) : CpuChange s (t.setCpu c y) c y :=
  ⟨update_self .., fun c' hc' => (update_of_ne hc' _ _).trans (h.others c' hc')⟩

theorem queue (c' : Nat) : t.queue c' = if c' = c then x.rq.pids else s.queue c' := by
  by_cases hc' : c' = c
  · rw [if_pos hc', hc', State.queue, h.self]
  · rw [if_neg hc', State.queue, h.others c' hc', State.queue]

theorem live (c' : Nat) (p : Pid) : t.Live c' p ↔ if c' = c then x.current = some p ∧ x.block = none else s.Live c' p := by
  by_cases hc' : c' = c
  · rw [if_pos hc', hc', Live, h.self]
  · rw [if_neg hc', Live, h.others c' hc', Live]

theorem cleared (hs : s.Placed place) (hx : ∀ p, x.block = some (p, .schedule) → x.current = none) :
    ∀ c' < s.ncpus, ∀ p, (t.cpus c').block = some (p, .schedule) → (t.cpus c').current = none := by
  intro c' hc' p hb
  by_cases hcc : c' = c
  · rw [hcc, h.self] at hb ⊢
    exact hx p hb
  · rw [h.others c' hcc] at hb ⊢
    exact hs.cleared c' hc' p hb

end

end CpuChange

/-! ### `block_current` and `schedule` -/

section
variable (h : s.Placed place)
include h

theorem Placed.block (hc : c < s.ncpus) (hs : s.block c = some t) : ∃ place, t.Placed place := by
  rw [State.block] at hs
  split at hs
  case h_2 => cases hs
  case h_1 pid hcur hblock =>
    cases hs
    have hplace : place pid = .running c := (h.live c hc pid).mp ⟨hcur, hblock⟩
    have hchange : CpuChange s ((s.setCpu c { s.cpus c with block := some (pid, .remove) }).setProc pid .blocked) c
        { s.cpus c with block := some (pid, .remove) } :=
      ⟨update_self .., fun _ hc' => update_of_ne hc' _ _⟩
    have hsame : ∀ c', ((s.setCpu c { s.cpus c with block := some (pid, .remove) }).setProc pid .blocked).queue c' =
        s.queue c' := by
      intro c'
      rw [hchange.queue]
      split
      case isTrue heq => rw [heq]; rfl
      · rfl
    refine ⟨_, h.move pid .off rfl rfl (fun c' hc' => ?_) (fun c' hc' p => ?_) (fun c' hc' p => ?_)
      (h.pend_kept (by simp [hplace]) (by simp)) (by simp) (h.onRq_kept (by simp [hplace]) (by simp)) (fun p hp => ?_) ?_
      (fun c' hc' p hb => ?_) (hchange.cleared h (by simp))⟩
    · rw [hsame]
      exact h.nodup c' hc'
    · rw [hsame]
      exact h.queue_kept (by simp [hplace]) (by simp) c' hc' p
    · rw [hchange.live]
      split
      case isTrue hcc =>
        -- the CPU's task was `pid` alone
        have honly : p ≠ pid → ¬s.Live c' p := by
          rintro hp ⟨hcur', -⟩
          rw [hcc, hcur] at hcur'
          exact hp (Option.some.inj hcur').symm
        by_cases hp : p = pid
        · simp [hp]
        · simp [hp, honly hp]
      case isFalse hcc =>
        by_cases hp : p = pid
        · simp only [hp, if_true, h.live c' hc', hplace]
          simp [Ne.symm hcc]
        · rw [if_neg hp]
    · exact (setProc_procs _ pid _ p).trans (if_neg hp)
    · intro _
      rw [setProc_procs, if_pos rfl]
      exact ⟨nofun, nofun⟩
    · by_cases hp : p = pid
      · simp [hp]
      rw [if_neg hp]
      by_cases hcc : c' = c
      · rw [hcc, hchange.self] at hb
        simp [Ne.symm hp] at hb
      · rwa [hchange.others c' hcc] at hb

theorem Placed.stayCpu {x : Cpu} (hchange : CpuChange s t c x) (hrq : x.rq.pids = s.queue c)
    (hlive : ∀ p, x.current = some p ∧ x.block = none ↔ s.Live c p) (hremove : ∀ p, x.block ≠ some (p, .remove))
    (hcleared : ∀ p, x.block = some (p, .schedule) → x.current = none) (hn : t.ncpus = s.ncpus)
    (htask : t.hasTask = s.hasTask) (hwakes : t.wakes = s.wakes) (htasks : t.tasks = s.tasks) (hprocs : t.procs = s.procs) :
    t.Placed place := by
  refine h.stay hn htask (fun c' => ?_) (fun c' p => ?_) (pend_congr hwakes) htasks hprocs (fun c' p hb => ?_)
    (hchange.cleared h hcleared)
  · rw [hchange.queue]
    split
    case isTrue hcc => rw [hrq, hcc]
    · rfl
  · rw [hchange.live]
    split
    case isTrue hcc => rw [hlive, hcc]
    · rfl
  · by_cases hcc : c' = c
    · rw [hcc, hchange.self] at hb
      exact absurd hb (hremove p)
    · rwa [hchange.others c' hcc] at hb

theorem Placed.pick (hc : c < s.ncpus) (hcur : (s.cpus c).current = none)
    (hd : (s.cpus c).rq.dequeueNext s.tasks i = some (next, rq', tasks')) (hchange : CpuChange s t c ⟨rq', next, none⟩)
    (hn : t.ncpus = s.ncpus) (htask : t.hasTask = s.hasTask) (hwakes : t.wakes = s.wakes) (htasks : t.tasks = tasks')
    (hprocs : t.procs = next.elim s.procs fun pid => update s.procs pid .running) : ∃ place, t.Placed place := by
  have hidle : ∀ p, ¬s.Live c p := by
    rintro p ⟨hp, -⟩
    rw [hcur] at hp
    cases hp
  rcases pids_dequeueNext hd with ⟨rfl, -, rfl, rfl⟩ | ⟨pid, rfl, hperm, rfl⟩
  · have hlive : ∀ p, (none : Option Pid) = some p ∧ (none : Option (Pid × BlockPoint)) = none ↔ s.Live c p := fun p =>
      iff_of_false (fun hp => nomatch hp.1) (hidle p)
    exact ⟨place, h.stayCpu hchange rfl hlive (by simp) (by simp) hn htask hwakes htasks hprocs⟩
  have hnodup : (pid :: rq'.pids).Nodup := hperm.nodup_iff.mp (h.nodup c hc)
  obtain ⟨hout, hrest⟩ := nodup_cons.mp hnodup
  have hmem : ∀ p, p ∈ s.queue c ↔ p = pid ∨ p ∈ rq'.pids := fun p => hperm.mem_iff.trans mem_cons
  have hplace : place pid = .queued c := (h.queue c hc pid).mp ((hmem pid).mpr (.inl rfl))
  have hfits := h.fits pid
  rw [hplace] at hfits
  refine ⟨_, h.move pid (.running c) hn htask (fun c' hc' => ?_) (fun c' hc' p => ?_) (fun c' hc' p => ?_)
    (fun k p => (pend_congr hwakes k p).trans (h.pend_kept (by simp [hplace]) (by simp) k p)) (fun c' hx => ?_)
    (fun p => ?_) (fun p hp => ?_) ?_ (fun c' hc' p hb => ?_) (hchange.cleared h (by simp))⟩
  · rw [hchange.queue]
    split
    · exact hrest
    · exact h.nodup c' hc'
  · rw [hchange.queue]
    by_cases hp : p = pid
    · simp only [hp, if_true, reduceCtorEq, iff_false]
      split
      · exact hout
      case isFalse hcc =>
        rw [h.queue c' hc', hplace]
        simpa using Ne.symm hcc
    · split
      case isTrue hcc => rw [hcc, hmem, or_iff_right hp]
      · rfl
  · rw [hchange.live]
    by_cases hp : p = pid
    · simp only [hp, if_true]
      split
      case isTrue hcc => simp [hcc]
      case isFalse hcc =>
        rw [h.live c' hc', hplace]
        simpa using Ne.symm hcc
    · split
      case isTrue hcc => simp [hcc, hidle p, Ne.symm hp]
      · rfl
  · rcases hx with hx | hx
    · cases hx
    · cases hx
      exact hc
  · rw [htasks]
    by_cases hp : p = pid
    · simp [hp]
    · simp [hp]
  · rw [hprocs]
    exact update_of_ne hp _ _
  · refine ⟨?_, hfits.2⟩
    rw [hprocs]
    exact update_self ..
  · have hcc : c' ≠ c := by
      rintro rfl
      rw [hchange.self] at hb
      cases hb
    rw [hchange.others c' hcc] at hb
    by_cases hp : p = pid
    · have hat := h.removing c' hc' p hb
      rw [hp, hplace] at hat
      rcases hat with hat | ⟨k, hat⟩ <;> cases hat
    · rwa [if_neg hp]

theorem Placed.put (pid : Pid) (x : Cpu) (f : Tasks) (hc : c < s.ncpus) (hplace : ∀ c, place pid ≠ .queued c)
    (hsame : ∀ p, (f p).onRq = (s.tasks p).onRq) (hchange : CpuChange s t c x) (hx : x.rq = ((s.cpus c).rq.enqueue f pid).1)
    (htasks : t.tasks = ((s.cpus c).rq.enqueue f pid).2) (hn : t.ncpus = s.ncpus) (htask : t.hasTask = s.hasTask)
    (hprocs : ∀ p, p ≠ pid → t.procs p = s.procs p) (hready : t.procs pid = .ready ∧ s.hasTask pid)
    (hlive : ∀ c' < s.ncpus, ∀ p, t.Live c' p ↔ p ≠ pid ∧ s.Live c' p) (hpend : ∀ k p, t.Pend k p ↔ p ≠ pid ∧ s.Pend k p)
    (hblock : x.block = (s.cpus c).block) (hremoving : ∀ c' < s.ncpus, (s.cpus c').block ≠ some (pid, .remove))
    (hcleared : ∀ p, x.block = some (p, .schedule) → x.current = none) : ∃ place, t.Placed place := by
  have hperm := pids_enqueue (s.cpus c).rq f pid
  have hmem : ∀ p, p ∈ x.rq.pids ↔ p = pid ∨ p ∈ s.queue c := by
    intro p
    rw [hx]
    exact hperm.mem_iff.trans mem_cons
  have hblocks : ∀ c', (t.cpus c').block = (s.cpus c').block := by
    intro c'
    by_cases hcc : c' = c
    · rw [hcc, hchange.self, hblock]
    · rw [hchange.others c' hcc]
  refine ⟨_, h.move pid (.queued c) hn htask (fun c' hc' => ?_) (fun c' hc' p => ?_) (fun c' hc' p => ?_)
    (fun k p => ?_) (fun c' hq => ?_) (fun p => ?_) hprocs hready (fun c' hc' p hb => ?_)
    (hchange.cleared h hcleared)⟩
  · rw [hchange.queue]
    split
    · rw [hx]
      exact hperm.nodup_iff.mpr (nodup_cons.mpr ⟨h.not_mem_queue hplace hc, h.nodup c hc⟩)
    · exact h.nodup c' hc'
  · rw [hchange.queue]
    by_cases hp : p = pid
    · simp only [hp, if_true]
      split
      case isTrue hcc => simp [hcc, hmem]
      case isFalse hcc =>
        refine iff_of_false (h.not_mem_queue hplace hc') ?_
        simpa using Ne.symm hcc
    · split
      case isTrue hcc => rw [hcc, hmem, or_iff_right hp]
      · rfl
  · rw [hlive c' hc']
    by_cases hp : p = pid
    · simp [hp]
    · simp [hp]
  · rw [hpend]
    by_cases hp : p = pid
    · simp [hp]
    · simp [hp]
  · rcases hq with hq | hq
    · cases hq
      exact hc
    · cases hq
  · rw [htasks, enqueue_onRq, hsame]
    by_cases hp : p = pid
    · simp [hp]
    · simp [hp]
  · rw [hblocks] at hb
    have hp : p ≠ pid := by
      rintro rfl
      exact hremoving c' hc' hb
    rwa [if_neg hp]

end

theorem charge_onRq (t : SchedEntity) (elapsed : UInt64) : (t.charge elapsed).onRq = t.onRq := by
  rw [SchedEntity.charge]
  split
  · split <;> rfl
  · split <;> rfl
  all_goals rfl

def withoutCurrent (s : State) (c : Nat) : State := s.setCpu c { s.cpus c with current := none }

theorem withoutCurrent_self (s : State) (c : Nat) :
    (s.withoutCurrent c).cpus c = { s.cpus c with current := none } := update_self ..

theorem putPrev_parts (s : State) (c : Nat) (elapsed : UInt64) :
    ((s.putPrev c elapsed).cpus c).block = (s.cpus c).block ∧ (s.putPrev c elapsed).ncpus = s.ncpus := by
  rw [State.putPrev]
  split
  · exact ⟨rfl, rfl⟩
  dsimp only
  split
  · rw [(enqueueOn_change _ c _).self]
    exact ⟨rfl, rfl⟩
  · exact ⟨rfl, rfl⟩

theorem Placed.putPrev (h : s.Placed place) (elapsed : UInt64) (hc : c < s.ncpus)
    (hblock : (s.cpus c).block = none) : ∃ place, ((s.putPrev c elapsed).withoutCurrent c).Placed place := by
  cases hcur : (s.cpus c).current with
  | none =>
    have hprev : s.putPrev c elapsed = s := by rw [State.putPrev, hcur]
    have hcpu : { s.cpus c with current := none } = s.cpus c := by rw [← hcur]
    rw [hprev, withoutCurrent, hcpu, setCpu, update_eq_self]
    exact ⟨place, h⟩
  | some pid =>
    have hplace : place pid = .running c := (h.live c hc pid).mp ⟨hcur, hblock⟩
    have hfits := h.fits pid
    rw [hplace] at hfits
    have hupdated : ∀ p, (update s.tasks pid ((s.tasks pid).charge elapsed) p).onRq = (s.tasks p).onRq := by
      intro p
      by_cases hp : p = pid
      · rw [hp, update_self, charge_onRq]
      · rw [update_of_ne hp]
    simp only [State.putPrev, hcur, hfits.1, true_or, if_true]
    generalize hu : ({ s with tasks := update s.tasks pid ((s.tasks pid).charge elapsed) } : State).setProc pid .ready = u
    have hcpus : u.cpus = s.cpus := by rw [← hu]; rfl
    have hrun : u.tasks = update s.tasks pid ((s.tasks pid).charge elapsed) := by rw [← hu]; rfl
    have hput : CpuChange s ((u.enqueueOn c pid).withoutCurrent c) c
        ⟨((s.cpus c).rq.enqueue u.tasks pid).1, none, (s.cpus c).block⟩ := by
      have hchange := (enqueueOn_change u c pid).setCpu
        { (u.enqueueOn c pid).cpus c with current := none }
      refine ⟨hchange.self.trans ?_, fun c' hc' => (hchange.others c' hc').trans (by rw [hcpus])⟩
      rw [(enqueueOn_change u c pid).self, hcpus]
    refine h.put pid _ u.tasks hc (by simp [hplace]) (hrun ▸ hupdated) hput rfl ?_ ?_ ?_ (fun p hp => ?_) ⟨?_, hfits.2⟩
      (fun c' hc' p => ?_) (fun k p => ?_) rfl (fun c' hc' hb => ?_) (fun _ _ => rfl)
    · rw [← hcpus]
      rfl
    · rw [← hu]
      rfl
    · rw [← hu]
      rfl
    · rw [← hu]
      exact (setProc_procs _ pid _ p).trans (if_neg hp)
    · rw [← hu]
      exact (setProc_procs _ pid _ pid).trans (if_pos rfl)
    · rw [hput.live]
      split
      case isTrue hcc =>
        have honly : s.Live c p → p = pid := fun hp => Option.some.inj (hp.1.symm.trans hcur)
        simp only [hcc, reduceCtorEq, false_and, false_iff, not_and]
        exact fun hne hp => hne (honly hp)
      case isFalse hcc =>
        refine ⟨fun hp => ⟨?_, hp⟩, And.right⟩
        rintro rfl
        rw [h.live c' hc', hplace] at hp
        cases hp
        exact hcc rfl
    · have hpend : ((u.enqueueOn c pid).withoutCurrent c).Pend k p ↔ s.Pend k p := pend_congr (by rw [← hu]; rfl) k p
      rw [hpend]
      refine ⟨fun hp => ⟨?_, hp⟩, And.right⟩
      rintro rfl
      rw [h.pend, hplace] at hp
      cases hp
    · have hat := h.removing c' hc' pid hb
      rw [hplace] at hat
      rcases hat with hat | ⟨k, hat⟩ <;> cases hat

theorem pickNext_parts (hs : s.pickNext c i = some t) : ∃ next rq' tasks',
    (s.cpus c).rq.dequeueNext s.tasks i = some (next, rq', tasks') ∧ CpuChange s t c ⟨rq', next, (s.cpus c).block⟩ ∧
      t.ncpus = s.ncpus ∧ t.hasTask = s.hasTask ∧ t.wakes = s.wakes ∧ t.tasks = tasks' ∧
      t.procs = next.elim s.procs fun pid => update s.procs pid .running := by
  obtain ⟨⟨next, rq', tasks'⟩, hd, rfl⟩ := Option.map_eq_some_iff.mp hs
  refine ⟨next, rq', tasks', hd, ?_⟩
  cases next with
  | none | some pid => exact ⟨⟨update_self .., fun _ hc' => update_of_ne hc' _ _⟩, rfl, rfl, rfl, rfl, rfl⟩

theorem Placed.schedule (h : s.Placed place) (hc : c < s.ncpus)
    (hblock : (s.cpus c).block = none) (hs : s.schedule c elapsed i = some t) : ∃ place, t.Placed place := by
  obtain ⟨place', hput⟩ := h.putPrev elapsed hc hblock
  obtain ⟨next, rq', tasks', hd, hchange, hn, htask, hwakes, htasks, hprocs⟩ := pickNext_parts hs
  obtain ⟨hkept, hcpus⟩ := s.putPrev_parts c elapsed
  have hself := withoutCurrent_self (s.putPrev c elapsed) c
  rw [hkept, hblock] at hchange
  refine hput.pick (hcpus.symm ▸ hc) (by rw [hself]) (by rw [hself]; exact hd) ⟨hchange.self, fun c' hc' => ?_⟩ hn htask
    hwakes htasks hprocs
  exact (hchange.others c' hc').trans (update_of_ne hc' _ _).symm

theorem Placed.goOn {x : Cpu} (h : s.Placed place) (hrq : x.rq = (s.cpus c).rq) (hbusy : (s.cpus c).block ≠ none)
    (hbusy' : x.block ≠ none) (hremove : ∀ p, x.block ≠ some (p, .remove))
    (hcleared : ∀ p, x.block = some (p, .schedule) → x.current = none) : (s.setCpu c x).Placed place := by
  have hlive : ∀ p, x.current = some p ∧ x.block = none ↔ s.Live c p := fun p =>
    iff_of_false (fun hp => hbusy' hp.2) (fun hp => hbusy hp.2)
  exact h.stayCpu ⟨update_self .., fun _ hc' => update_of_ne hc' _ _⟩ (by rw [hrq, State.queue]) hlive hremove hcleared
    rfl rfl rfl rfl rfl

theorem Placed.blockStep (h : s.Placed place) (hc : c < s.ncpus)
    (hs : s.blockStep c elapsed i = some t) : ∃ place, t.Placed place := by
  rw [State.blockStep] at hs
  split at hs
  · cases hs
  case h_2 pid hblock =>
    -- the task is on no queue, so there is nothing to remove
    have hout : pid ∉ s.queue c := by
      refine h.not_mem_queue (fun c' hq => ?_) hc
      have hat := h.removing c hc pid hblock
      rw [hq] at hat
      rcases hat with hat | ⟨k, hat⟩ <;> cases hat
    rw [removePid_of_not_mem hout] at hs
    cases hs
    exact ⟨place, h.goOn rfl (by simp [hblock]) (by simp) (by simp) (by simp)⟩
  case h_3 pid hblock =>
    cases hs
    exact ⟨place, h.goOn rfl (by simp [hblock]) (by simp) (by simp) (by simp)⟩
  case h_4 pid hblock =>
    have hcur := h.cleared c hc pid hblock
    obtain ⟨u, hsched, rfl⟩ := Option.map_eq_some_iff.mp hs
    have hprev : s.putPrev c elapsed = s := by rw [State.putPrev, hcur]
    rw [State.schedule, hprev] at hsched
    obtain ⟨next, rq', tasks', hd, hchange, hn, htask, hwakes, htasks, hprocs⟩ := pickNext_parts hsched
    have hfree : { u.cpus c with block := none } = (⟨rq', next, none⟩ : Cpu) := by rw [hchange.self]
    rw [hfree]
    exact h.pick hc hcur hd (hchange.setCpu _) hn htask hwakes htasks hprocs

/-! ### `wake_pid` -/

theorem bestCpu_lt {e : SchedEntity} {r : Nat × UInt64} (n : Nat) : ∀ {cpu : Nat} {best : Option (Nat × UInt64)},
    (∀ b, best = some b → b.1 < cpu + n) → s.bestCpu e n cpu best = some r → r.1 < cpu + n := by
  induction n with
  | zero => exact fun hbest h => hbest r h
  | succ n ih =>
    intro cpu best hbest h
    have hlt := ih (fun b hb => ?_) h
    · omega
    · rcases ite_eq_iff.mp hb with ⟨-, hb⟩ | ⟨-, hb⟩
      · cases hb
        simp only
        omega
      · have := hbest b hb
        omega

theorem enqueueTask_parts (hcpus : 0 < s.ncpus) (pid : Pid) : ∃ c < s.ncpus, ∃ f : Tasks,
    (∀ p, (f p).onRq = (s.tasks p).onRq) ∧ s.enqueueTask pid = ({ s with tasks := f } : State).enqueueOn c pid := by
  refine ⟨_, ?_, _, fun p => ?_, rfl⟩
  · cases hbest : s.bestCpu (s.tasks pid) s.ncpus 0 none with
    | none => exact hcpus
    | some r => simpa using bestCpu_lt s.ncpus (by simp) hbest
  · by_cases hp : p = pid
    · rw [hp, update_self]
    · rw [update_of_ne hp]

section
variable (h : s.Placed place)
include h

theorem Placed.wakeOn {w' : Wake} (hk : s.wakes[k]? = some w) (hpid : w'.pid = w.pid)
    (hpend : w'.Pending ↔ w.Pending) : (s.setWake k w').Placed place := by
  refine h.stay rfl rfl (fun _ => rfl) (fun _ _ => Iff.rfl) (fun j p => ?_) rfl rfl (fun _ _ hb => hb) h.cleared
  rw [pend_setWake hk]
  split
  case isTrue hj => simp [Pend, hj, hk, hpid, hpend]
  · rfl

/-- No `block_current` of the task a `wake_pid` is about to enqueue still has to take that task off its CPU's queue. -/
def clear (s : State) : Event → Bool
  | .wakeStep k =>
    match s.wakes[k]? with
    | some ⟨pid, .enqueue⟩ => (List.range s.ncpus).all fun c => (s.cpus c).block ≠ some (pid, .remove)
    | _ => true
  | _ => true

section
variable {pid : Pid} (hk : s.wakes[k]? = some ⟨pid, .lock⟩)
include hk

theorem Placed.pend_lock {point : WakePoint} {x : Place} (hplace : place pid = .off)
    (hx : ∀ j, x = .waking j ↔ j = k ∧ Wake.Pending ⟨pid, point⟩) (j : Nat) (p : Pid) :
    ((s.setProc pid .ready).setWake k ⟨pid, point⟩).Pend j p ↔ if p = pid then x = .waking j else s.Pend j p := by
  have hset : ((s.setProc pid .ready).setWake k ⟨pid, point⟩).Pend j p ↔
      if j = k then pid = p ∧ Wake.Pending ⟨pid, point⟩ else s.Pend j p :=
    pend_setWake (s := s.setProc pid .ready) hk ⟨pid, point⟩ j p
  have hnot : ¬s.Pend k p := by
    rintro ⟨w, hw, -, hpend⟩
    rw [hk] at hw
    cases hw
    rcases hpend with hpend | hpend <;> cases hpend
  rw [hset, hx]
  by_cases hj : j = k
  · by_cases hp : p = pid
    · simp [hj, hp]
    · simp [hj, hp, Ne.symm hp, hnot]
  · by_cases hp : p = pid
    · simp [hj, hp, h.pend, hplace]
    · simp [hj, hp]

theorem Placed.wakeReady (hblocked : s.procs pid = .blocked) : ∃ place, ((s.setProc pid .ready).setWake k
      ⟨pid, if s.hasTask pid then .readOnRq else .done⟩).Placed place := by
  have hplace : place pid = .off := by
    have hfits := h.fits pid
    rw [hblocked] at hfits
    cases hp : place pid with
    | off => rfl
    | queued c | running c | waking k =>
      rw [hp] at hfits
      cases hfits.1
  have hprocs : ∀ p, p ≠ pid → (s.setProc pid .ready).procs p = s.procs p :=
    fun p hp => (setProc_procs s pid .ready p).trans (if_neg hp)
  have hself : (s.setProc pid .ready).procs pid = .ready := (setProc_procs s pid .ready pid).trans (if_pos rfl)
  cases htask : s.hasTask pid with
  | true =>
    refine ⟨_, h.move pid (.waking k) rfl rfl h.nodup (h.queue_kept (by simp [hplace]) (by simp))
      (h.live_kept (by simp [hplace]) (by simp)) (h.pend_lock hk hplace (by simp [Wake.Pending, eq_comm])) (by simp)
      (h.onRq_kept (by simp [hplace]) (by simp)) hprocs ⟨hself, htask⟩ (fun c hc p hb => ?_) h.cleared⟩
    split
    · exact .inr ⟨k, rfl⟩
    · exact hb
  | false =>
    refine ⟨_, h.move pid .off rfl rfl h.nodup (h.queue_kept (by simp [hplace]) (by simp))
      (h.live_kept (by simp [hplace]) (by simp)) (h.pend_lock hk hplace (by simp [Wake.Pending])) (by simp)
      (h.onRq_kept (by simp [hplace]) (by simp)) hprocs (fun htrue => ?_) (fun c hc p hb => ?_) h.cleared⟩
    · rw [htask] at htrue
      cases htrue
    · split
      · exact .inl rfl
      · exact hb

end

theorem Placed.wakeEnqueue {pid : Pid} (hk : s.wakes[k]? = some ⟨pid, .enqueue⟩)
    (hclear : ∀ c < s.ncpus, (s.cpus c).block ≠ some (pid, .remove)) :
    ∃ place, ((s.enqueueTask pid).setWake k ⟨pid, .done⟩).Placed place := by
  have hplace : place pid = .waking k := (h.pend k pid).mp ⟨_, hk, rfl, .inr rfl⟩
  have hfits := h.fits pid
  rw [hplace] at hfits
  obtain ⟨c, hc, f, hf, heq⟩ := enqueueTask_parts h.cpus pid
  rw [heq]
  have hchange : CpuChange s (((({ s with tasks := f } : State).enqueueOn c pid)).setWake k ⟨pid, .done⟩) c
      { s.cpus c with rq := ((s.cpus c).rq.enqueue f pid).1 } :=
    ⟨update_self .., fun _ hc' => update_of_ne hc' _ _⟩
  refine h.put pid _ f hc (by simp [hplace]) hf hchange rfl rfl rfl rfl (fun _ _ => rfl) hfits (fun c' hc' p => ?_)
    (fun j p => ?_) rfl hclear (h.cleared c hc)
  · have hsame : (((({ s with tasks := f } : State).enqueueOn c pid)).setWake k ⟨pid, .done⟩).Live c' p ↔ s.Live c' p := by
      rw [hchange.live]
      split
      case isTrue hcc => rw [hcc]; rfl
      · rfl
    rw [hsame]
    refine ⟨fun hp => ⟨?_, hp⟩, And.right⟩
    rintro rfl
    rw [h.live c' hc', hplace] at hp
    cases hp
  · have hset : (((({ s with tasks := f } : State).enqueueOn c pid)).setWake k ⟨pid, .done⟩).Pend j p ↔
        if j = k then pid = p ∧ Wake.Pending ⟨pid, .done⟩ else s.Pend j p :=
      pend_setWake (s := ({ s with tasks := f } : State).enqueueOn c pid) hk ⟨pid, .done⟩ j p
    rw [hset, h.pend]
    by_cases hj : j = k
    · simp only [hj, if_true, Wake.Pending, reduceCtorEq, or_self, and_false, false_iff, not_and]
      intro hp hpend
      have hpk : s.Pend k p := (h.pend k p).mpr hpend
      obtain ⟨w, hw, rfl, -⟩ := hpk
      rw [hk] at hw
      cases hw
      exact hp rfl
    rw [if_neg hj]
    refine ⟨fun hp => ⟨?_, hp⟩, And.right⟩
    rintro rfl
    rw [hplace] at hp
    cases hp
    exact hj rfl

theorem Placed.wakeStep (hok : s.clear (.wakeStep k)) (hs : s.wakeStep k = some t) : ∃ place, t.Placed place := by
  rw [State.wakeStep] at hs
  split at hs
  · cases hs
  case h_2 w hk =>
    obtain ⟨pid, point⟩ := w
    cases point with
    | check =>
      cases hs
      refine ⟨place, h.wakeOn hk rfl ?_⟩
      split <;> simp [Wake.Pending]
    | lock =>
      simp only at hs
      split at hs
      case isTrue hblocked =>
        cases hs
        exact h.wakeReady hk hblocked
      case isFalse =>
        cases hs
        exact ⟨place, h.wakeOn hk rfl (by simp [Wake.Pending])⟩
    | readOnRq =>
      cases hs
      -- the task is on no queue: the flag says so
      have hplace : place pid = .waking k := (h.pend k pid).mp ⟨_, hk, rfl, .inl rfl⟩
      have hoff : (s.tasks pid).onRq = false := by
        rw [← Bool.not_eq_true, h.onRq]
        rintro ⟨c, hc⟩
        rw [hplace] at hc
        cases hc
      exact ⟨place, h.wakeOn hk rfl (by simp [Wake.Pending, hoff])⟩
    | enqueue =>
      cases hs
      simp only [clear, hk, all_eq_true, mem_range, decide_eq_true_eq] at hok
      exact h.wakeEnqueue hk hok
    | done => cases hs

theorem Placed.step {e : Event} (hok : s.clear e) (hs : s.step e = some t) : ∃ place, t.Placed place := by
  cases e with
  | block c =>
    obtain ⟨hc, hs⟩ := Option.ite_none_right_eq_some.mp hs
    exact h.block hc hs
  | blockStep c elapsed i =>
    obtain ⟨hc, hs⟩ := Option.ite_none_right_eq_some.mp hs
    exact h.blockStep hc hs
  | wake pid =>
    cases hs
    refine ⟨place, h.stay rfl rfl (fun _ => rfl) (fun _ _ => Iff.rfl) (fun k p => ?_) rfl rfl (fun _ _ hb => hb) h.cleared⟩
    rw [Pend, Pend]
    by_cases hk : k < s.wakes.length
    · rw [getElem?_append_left hk]
    refine iff_of_false ?_ ?_
    · rintro ⟨w, hw, -, hpend⟩
      rw [getElem?_append_right (not_lt.mp hk)] at hw
      have hw := mem_singleton.mp (mem_of_getElem? hw)
      rw [hw] at hpend
      rcases hpend with hpend | hpend <;> cases hpend
    · rintro ⟨w, hw, -⟩
      exact hk (List.getElem?_eq_some_iff.mp hw).1
  | wakeStep k => exact h.wakeStep hok hs
  | schedule c elapsed i =>
    obtain ⟨⟨hc, hblock⟩, hs⟩ := Option.ite_none_right_eq_some.mp hs
    exact h.schedule hc hblock hs

/-! ### No task is lost -/

def Quiet (s : State) : Prop := (∀ c < s.ncpus, (s.cpus c).block = none) ∧ ∀ w ∈ s.wakes, w.point = .done

/-- Every ready task is on one run queue, and every running task is the current one of one CPU. -/
structure NoneLost (s : State) : Prop where
  ready : ∀ p, s.hasTask p = true → s.procs p = .ready → ∃! c, c < s.ncpus ∧ p ∈ s.queue c
  running : ∀ p, s.hasTask p = true → s.procs p = .running → ∃! c, c < s.ncpus ∧ (s.cpus c).current = some p

theorem Placed.noneLost (hquiet : s.Quiet) : s.NoneLost := by
  refine ⟨fun p htask hready => ?_, fun p htask hrun => ?_⟩
  · have hfits := h.fits p
    rw [htask, hready] at hfits
    cases hp : place p with
    | queued c =>
      have hc := h.bound p c (.inl hp)
      refine ⟨c, ⟨hc, (h.queue c hc p).mpr hp⟩, ?_⟩
      rintro c' ⟨hc', hmem⟩
      rw [h.queue c' hc', hp] at hmem
      cases hmem
      rfl
    | running c =>
      rw [hp] at hfits
      cases hfits.1
    | waking k =>
      obtain ⟨w, hw, -, hpend⟩ := (h.pend k p).mpr hp
      rw [Wake.Pending, hquiet.2 w (mem_of_getElem? hw)] at hpend
      rcases hpend with hpend | hpend <;> cases hpend
    | off =>
      rw [hp] at hfits
      exact absurd rfl (hfits rfl).1
  · have hfits := h.fits p
    rw [htask, hrun] at hfits
    cases hp : place p with
    | running c =>
      have hc := h.bound p c (.inr hp)
      refine ⟨c, ⟨hc, ((h.live c hc p).mpr hp).1⟩, ?_⟩
      rintro c' ⟨hc', hcur⟩
      have hlive := (h.live c' hc' p).mp ⟨hcur, hquiet.1 c' hc'⟩
      rw [hp] at hlive
      cases hlive
      rfl
    | queued c | waking k =>
      rw [hp] at hfits
      cases hfits.1
    | off =>
      rw [hp] at hfits
      exact absurd rfl (hfits rfl).2

end

/-- From any state in which every task has its place, in every run in which no `wake_pid` enqueues a task before a
    `block_current` of it has taken it off its CPU's queue, no runnable task is lost. -/
theorem no_runnable_lost (start s : State) (place : Pid → Place) (hstart : start.Placed place)
    (h : Reach (fun s e t => s.step e = some t) (fun s e => s.clear e = true) start s) : s.Quiet → s.NoneLost := by
  have hinv : ∃ place, s.Placed place := by
    refine h.invariant (I := fun u => ∃ place, u.Placed place) ⟨place, hstart⟩ ?_
    rintro u e v ⟨place', hu⟩ hok hs
    exact hu.step hok hs
  obtain ⟨place', hplaced⟩ := hinv
  exact hplaced.noneLost

def oneTask : State where
  ncpus := 1
  cpus := fun _ => ⟨.new, some ⟨1, by decide⟩, none⟩
  tasks := fun _ => .new 0
  procs := fun _ => .running
  hasTask := fun p => p = ⟨1, by decide⟩
  wakes := []

theorem placed_oneTask : oneTask.Placed fun p => if p = ⟨1, by decide⟩ then .running 0 else .off := by
  refine ⟨by decide, fun c hc => nodup_nil, fun c hc p => ?_, fun c hc p => ?_, fun k p => ?_, fun p c hp => ?_,
    fun p => ?_, fun p => ?_, fun c hc p hb => (nomatch hb), fun c hc p hb => (nomatch hb)⟩
  · refine iff_of_false not_mem_nil ?_
    split <;> simp
  · have hzero : c = 0 := Nat.lt_one_iff.mp hc
    by_cases hp : p = ⟨1, by decide⟩
    · simp [Live, oneTask, hp, hzero]
    · simp [Live, oneTask, hp, Ne.symm hp]
  · refine iff_of_false (fun hpend => ?_) ?_
    · obtain ⟨w, hw, -⟩ := hpend
      cases hw
    · split <;> simp
  · split at hp
    · rcases hp with hp | hp <;> cases hp
      decide
    · rcases hp with hp | hp <;> cases hp
  · refine iff_of_false Bool.false_ne_true ?_
    split <;> simp
  · by_cases hp : p = ⟨1, by decide⟩
    · simp [Place.Fits, oneTask, hp]
    · simp [Place.Fits, oneTask, hp]

theorem quiet_of_one (hncpus : s.ncpus = 1) (hblock : (s.cpus 0).block = none) (hwakes : ∀ w ∈ s.wakes, w.point = .done) :
    s.Quiet := by
  refine ⟨fun c hc => ?_, hwakes⟩
  obtain rfl : c = 0 := by omega
  exact hblock

/-- The task blocks, is woken, and runs again. -/
theorem no_runnable_lost_one : ∃ s, Reach.run State.step State.clear oneTask
    [.block 0, .blockStep 0 0 0, .blockStep 0 0 0, .blockStep 0 0 0, .wake ⟨1, by decide⟩, .wakeStep 0, .wakeStep 0,
      .wakeStep 0, .wakeStep 0, .schedule 0 0 0] = some s ∧ s.Quiet ∧ s.NoneLost := by
  refine Reach.exists_run_and (A := fun s => s.ncpus = 1 ∧ (s.cpus 0).block = none ∧ s.wakes = [⟨⟨1, by decide⟩, .done⟩])
    (by decide +kernel) fun s hs ⟨hncpus, hblock, hwakes⟩ => ?_
  have hquiet := quiet_of_one hncpus hblock (by simp [hwakes])
  exact ⟨hquiet, no_runnable_lost oneTask s _ placed_oneTask hs hquiet⟩

/-- The task is woken right after it has set itself blocked: it is put on the queue of its CPU and taken off again, and
    ends up ready and on no queue. -/
theorem wake_in_block_lost : ∃ s, Reach.run State.step (fun _ _ => true) oneTask
    [.block 0, .wake ⟨1, by decide⟩, .wakeStep 0, .wakeStep 0, .wakeStep 0, .wakeStep 0, .blockStep 0 0 0, .blockStep 0 0 0,
      .blockStep 0 0 0] = some s ∧ s.Quiet ∧ s.procs ⟨1, by decide⟩ = .ready ∧ s.hasTask ⟨1, by decide⟩ = true ∧
      ∀ c < s.ncpus, s.queue c = [] := by
  refine Reach.exists_run_and (A := fun s => (s.ncpus = 1 ∧ (s.cpus 0).block = none ∧ s.wakes = [⟨⟨1, by decide⟩, .done⟩]) ∧
    s.procs ⟨1, by decide⟩ = .ready ∧ s.hasTask ⟨1, by decide⟩ = true ∧ s.queue 0 = []) ?_ ?_
  · decide +kernel
  · rintro s - ⟨⟨hncpus, hblock, hwakes⟩, hready, htask, hempty⟩
    refine ⟨quiet_of_one hncpus hblock (by simp [hwakes]), hready, htask, fun c hc => ?_⟩
    obtain rfl : c = 0 := by omega
    exact hempty

/-- The task is at this place and at no other. -/
structure At (s : State) (p : Pid) (x : Place) : Prop where
  bound : ∀ c, x = .queued c ∨ x = .running c → c < s.ncpus
  queue : ∀ c < s.ncpus, (s.queue c).count p = if x = .queued c then 1 else 0
  live : ∀ c < s.ncpus, s.Live c p ↔ x = .running c
  pend : ∀ k, s.Pend k p ↔ x = .waking k
  onRq : (s.tasks p).onRq = true ↔ ∃ c, x = .queued c
  fits : x.Fits (s.hasTask p) (s.procs p)

/-- In every state of a run with clear steps, also between the steps of a call, each task is at one place: a ready one is
    once on one queue, or in the hands of one `wake_pid`. -/
theorem one_place (start s : State) (place : Pid → Place) (hstart : start.Placed place)
    (h : Reach (fun s e t => s.step e = some t) (fun s e => s.clear e = true) start s) (p : Pid) : ∃ x, s.At p x := by
  obtain ⟨place', hs⟩ : ∃ place, s.Placed place :=
    h.invariant (I := fun u => ∃ place, u.Placed place) ⟨place, hstart⟩ fun u e v ⟨_, hu⟩ hok hs => hu.step hok hs
  refine ⟨place' p, hs.bound p, fun c hc => ?_, fun c hc => hs.live c hc p, fun k => hs.pend k p, hs.onRq p, hs.fits p⟩
  rw [(hs.nodup c hc).count]
  simp only [hs.queue c hc p]

/-- The task has been set ready and is on no queue yet. -/
theorem one_place_woken : ∃ s, Reach.run State.step State.clear oneTask
    [.block 0, .blockStep 0 0 0, .blockStep 0 0 0, .blockStep 0 0 0, .wake ⟨1, by decide⟩, .wakeStep 0, .wakeStep 0] =
      some s ∧ s.procs ⟨1, by decide⟩ = .ready ∧ s.queue 0 = [] ∧ ∃ x, s.At ⟨1, by decide⟩ x := by
  exact Reach.exists_run_and (A := fun s => s.procs ⟨1, by decide⟩ = .ready ∧ s.queue 0 = []) (by decide +kernel)
    fun s hs ⟨hready, hempty⟩ => ⟨hready, hempty, one_place oneTask s _ placed_oneTask hs _⟩

end State

end Moxide.Scheduler
