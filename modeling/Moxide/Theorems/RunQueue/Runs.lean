import Moxide.Theorems.RunQueue

/-! Runs of one run queue: it is the multi-class priority queue of the tasks that have arrived and not left. -/

namespace Moxide.Scheduler
open Function (update update_of_ne update_self)
open Lib List RunQueue

namespace QueueRun
variable {tasks tasks' : Tasks} {jobs : List Pid} {next : Option Pid} {p pid : Pid} {s t : QueueRun}

def totalWeight (tasks : Tasks) (jobs : List Pid) : Nat := (jobs.map fun p => (tasks p).weight.toNat).sum

theorem totalWeight_congr (h : ∀ p ∈ jobs, (tasks' p).weight = (tasks p).weight) :
    totalWeight tasks' jobs = totalWeight tasks jobs := by
  exact congrArg List.sum (map_congr_left fun p hp => by rw [h p hp])

theorem totalWeight_le (tasks : Tasks) (jobs : List Pid) : totalWeight tasks jobs ≤ jobs.length * 100000 := by
  have hsum :=
    sum_le_card_nsmul (jobs.map fun p => (tasks p).weight.toNat) _ (forall_mem_map.mpr fun p _ => (tasks p).weight_le)
  rwa [length_map] at hsum

theorem totalWeight_filter (tasks : Tasks) (hnodup : jobs.Nodup) (hp : p ∈ jobs) :
    totalWeight tasks (jobs.filter (· ≠ p)) + (tasks p).weight.toNat = totalWeight tasks jobs ∧
      (jobs.filter (· ≠ p)).length + 1 = jobs.length := by
  have hperm : jobs.Perm (p :: jobs.filter (· ≠ p)) := by
    rw [← Keyed.erase_eq_filter (k := fun q => q) (by rwa [map_id']) hp]
    exact perm_cons_erase hp
  refine ⟨?_, hperm.length_eq.symm⟩
  have hsum := (hperm.map fun q => (tasks q).weight.toNat).sum_eq
  rw [map_cons, sum_cons] at hsum
  rw [totalWeight, totalWeight]
  omega

/-- A task is put on the queue, or its parameters are changed, only while it is not queued, and there are fewer than 2^64
    calls of `enqueue`. -/
def proper (s : QueueRun) : QueueEvent → Bool
  | .enqueue pid => pid ∉ s.jobs ∧ s.enqueues + 1 < 2 ^ 64
  | .dequeueNext _ | .removePid _ => true
  | .setSched pid _ => pid ∉ s.jobs

structure Inv (s : QueueRun) : Prop where
  nodup : s.jobs.Nodup
  holds : Holds s.rq s.tasks s.jobs
  stamped : Stamped s.rq
  seq : s.rq.rtSeq.toNat ≤ s.enqueues ∧ s.enqueues < 2 ^ 64
  nr : s.rq.nrRunning.toNat = s.jobs.length
  load : s.rq.loadWeight.toNat = totalWeight s.tasks s.jobs
  onRq : ∀ p, (s.tasks p).onRq = true ↔ p ∈ s.jobs
  minVruntime : ∀ p ∈ ofClass s.tasks s.jobs .normal, s.rq.minVruntime ≤ (s.tasks p).vruntime

theorem inv_new (tasks : Tasks) : (new tasks).Inv where
  nodup := .nil
  holds := .new _
  stamped := ⟨.nil, fun _ h => nomatch h⟩
  seq := ⟨le_refl _, Nat.two_pow_pos 64⟩
  nr := rfl
  load := rfl
  onRq := fun p => by simp [new]
  minVruntime := fun _ h => nomatch h

theorem toNat_add_one_32 {n : UInt32} (h : n.toNat + 1 < 2 ^ 32) : (n + 1).toNat = n.toNat + 1 := by
  exact Nat.mod_eq_of_lt h

theorem Stamped.append {rq rq' : RunQueue} (h : Stamped rq) {e : RtEntry} (hseq : e.enqueueSeq = rq.rtSeq)
    (hnext : rq.rtSeq.toNat + 1 < 2 ^ 64) (hheap : rq'.rtHeap = rq.rtHeap ++ [e]) (hrt : rq'.rtSeq = rq.rtSeq + 1) :
    Stamped rq' := by
  have hnat : rq'.rtSeq.toNat = rq.rtSeq.toNat + 1 := hrt ▸ Word.toNat_add_of_lt hnext
  refine ⟨?_, fun x hx => ?_⟩
  · rw [hheap, pairwise_append]
    refine ⟨h.sorted, pairwise_singleton _ _, fun a ha b hb => ?_⟩
    rw [mem_singleton.mp hb, hseq]
    exact h.below a ha
  · rw [hheap] at hx
    rcases mem_append.mp hx with hx | hx
    · have := h.below x hx
      omega
    · rw [mem_singleton.mp hx, hseq]
      omega

section
variable (h : s.Inv)
include h

theorem Inv.enqueue (hpid : pid ∉ s.jobs) (hcount : s.enqueues + 1 < 2 ^ 64) : (s.enqueue pid).Inv := by
  obtain ⟨hholds, harr⟩ := h.holds.enqueue hpid
  have hne : ∀ q ∈ s.jobs, q ≠ pid := fun q hq heq => hpid (heq ▸ hq)
  have hkept : ∀ q ∈ s.jobs, (s.rq.enqueue s.tasks pid).2 q = s.tasks q := fun q hq => harr.others q (hne q hq)
  have hnodup : (s.jobs ++ [pid]).Nodup := nodup_append.mpr ⟨h.nodup, nodup_singleton _, by simpa using hne⟩
  have hlen := length_lt_of_nodup hnodup
  rw [length_append, length_singleton] at hlen
  have hseq := h.seq
  have hnr := h.nr
  have hload := h.load
  have hweights : totalWeight (s.rq.enqueue s.tasks pid).2 (s.jobs ++ [pid]) =
      totalWeight s.tasks s.jobs + (s.tasks pid).weight.toNat := by
    rw [totalWeight, map_append, List.sum_append, map_singleton, harr.self.2.1]
    exact congrArg (· + _) (totalWeight_congr fun q hq => by rw [hkept q hq])
  refine ⟨hnodup, hholds, ?_, ?_, ?_, ?_, fun q => ?_, fun q hq => ?_⟩
  · rcases harr.stamp with ⟨hheap, hsame⟩ | ⟨hheap, hnext⟩
    · exact ⟨hheap ▸ h.stamped.sorted, hheap ▸ hsame ▸ h.stamped.below⟩
    · exact Stamped.append h.stamped rfl (by omega) hheap hnext
  · refine ⟨?_, hcount⟩
    rcases harr.stamp with ⟨-, hsame⟩ | ⟨-, hnext⟩
    · exact hsame ▸ Nat.le_succ_of_le hseq.1
    · have hnat : (s.rq.enqueue s.tasks pid).1.rtSeq.toNat = s.rq.rtSeq.toNat + 1 :=
        hnext ▸ Word.toNat_add_of_lt (show s.rq.rtSeq.toNat + 1 < 2 ^ 64 by omega)
      exact hnat ▸ Nat.succ_le_succ hseq.1
  · change (s.rq.enqueue s.tasks pid).1.nrRunning.toNat = (s.jobs ++ [pid]).length
    rw [harr.nr, toNat_add_one_32 (by omega), hnr, length_append, length_singleton]
  · have hbound := totalWeight_le s.tasks s.jobs
    have hw := (s.tasks pid).weight_le
    have hnat : (s.rq.enqueue s.tasks pid).1.loadWeight.toNat = s.rq.loadWeight.toNat + (s.tasks pid).weight.toNat :=
      harr.load ▸ Word.toNat_add_of_lt (by omega)
    exact hnat.trans (by rw [hload]; exact hweights.symm)
  · change ((s.rq.enqueue s.tasks pid).2 q).onRq ↔ q ∈ s.jobs ++ [pid]
    rw [mem_append, mem_singleton]
    by_cases hq : q = pid
    · rw [hq]
      exact iff_of_true harr.self.1 (.inr rfl)
    · rw [harr.others q hq, h.onRq]
      simp [hq]
  · obtain ⟨hmem, hc⟩ := mem_ofClass.mp hq
    change (s.rq.enqueue s.tasks pid).1.minVruntime ≤ ((s.rq.enqueue s.tasks pid).2 q).vruntime
    rw [harr.minVruntime]
    by_cases hqp : q = pid
    · rw [hqp] at hc ⊢
      refine harr.clamped ?_
      rw [classOf, ← harr.self.2.2]
      exact hc
    · have hold : q ∈ s.jobs := (mem_append.mp hmem).resolve_right (by simpa using hqp)
      rw [harr.others q hqp]
      refine h.minVruntime q (mem_ofClass.mpr ⟨hold, ?_⟩)
      rw [classOf, ← harr.others q hqp]
      exact hc

theorem Inv.leaves {rq' : RunQueue} {tasks' : Tasks} (hpid : pid ∈ s.jobs) (hl : Leaves pid s.rq s.tasks rq' tasks')
    (hmin : ∀ q ∈ ofClass s.tasks s.jobs .normal, rq'.minVruntime ≤ (s.tasks q).vruntime) :
    (⟨rq', tasks', s.jobs.filter (· ≠ pid), s.enqueues⟩ : QueueRun).Inv := by
  have hsame : ∀ q, SameParams (s.tasks q) (tasks' q) := by
    intro q
    rw [hl.tasks]
    by_cases hq : q = pid
    · rw [hq, update_self]
      exact ⟨rfl, rfl, rfl, rfl, rfl⟩
    · rw [update_of_ne hq]
      exact ⟨rfl, rfl, rfl, rfl, rfl⟩
  obtain ⟨hsum, hlen⟩ := totalWeight_filter s.tasks h.nodup hpid
  have hnr := h.nr
  have hload := h.load
  refine ⟨h.nodup.filter _, (h.holds.drops hl.toDrops).congr fun q _ => hsame q, ?_, ?_, ?_, ?_, fun q => ?_, ?_⟩
  · refine ⟨?_, fun e he => ?_⟩
    · rw [hl.rt]
      exact h.stamped.sorted.filter _
    · rw [hl.rt] at he
      rw [hl.rtSeq]
      exact h.stamped.below e (mem_filter.mp he).1
  · exact ⟨hl.rtSeq ▸ h.seq.1, h.seq.2⟩
  · have hpos : ¬s.rq.nrRunning < 1 := by
      rw [UInt32.lt_iff_toNat_lt]
      exact not_lt.mpr (by rw [hnr, ← hlen]; exact Nat.le_add_left 1 _)
    rw [hl.nr, saturatingSub32, if_neg hpos, UInt32.toNat_sub_of_le _ _ (UInt32.not_lt.mp hpos), hnr, ← hlen]
    rfl
  · have hle : ¬s.rq.loadWeight < (s.tasks pid).weight := by
      rw [UInt64.lt_iff_toNat_lt]
      omega
    rw [hl.load, saturatingSub64, if_neg hle, UInt64.toNat_sub_of_le _ _ (UInt64.not_lt.mp hle), hload, ← hsum,
      totalWeight_congr fun q _ => (hsame q).2.2.2.2]
    exact Nat.add_sub_cancel _ _
  · rw [hl.tasks]
    by_cases hq : q = pid
    · simp [hq]
    · simp [hq, h.onRq]
  · intro q hq
    rw [ofClass_congr fun q _ => hsame q, ofClass_filter] at hq
    rw [(hsame q).2.2.2.1]
    exact hmin q (mem_filter.mp hq).1

theorem Inv.dequeueNext {i : Nat} (hd : s.dequeueNext i = some (next, t)) :
    t.Inv ∧ ((s.jobs = [] ∧ next = none) ∨ ∃ p, next = some p ∧ Served s.tasks s.jobs p) := by
  obtain ⟨⟨next', rq', tasks'⟩, hrq, heq⟩ := Option.map_eq_some_iff.mp hd
  cases heq
  rcases h.holds.dequeueNext h.nodup h.stamped hrq with ⟨hempty, rfl, rfl, rfl⟩ | ⟨p, rfl, ⟨hl, hmin, hserved⟩⟩
  · refine ⟨?_, .inl ⟨hempty, rfl⟩⟩
    rw [filter_eq_self.mpr (by simp)]
    exact h
  refine ⟨?_, .inr ⟨p, rfl, hserved⟩⟩
  have hjobs : s.jobs.filter (some · ≠ some p) = s.jobs.filter (· ≠ p) :=
    filter_congr fun x _ => by simp
  rw [hjobs]
  refine h.leaves hserved.1 hl fun q hq => ?_
  rcases hmin with hmin | ⟨hc, hmin⟩
  · rw [hmin]
    exact h.minVruntime q hq
  -- the minimum is raised to the vruntime of the task taken, which no other has below
  rw [hmin]
  have hleast := hserved.2.2
  rw [hc] at hleast
  exact hleast q hq

theorem Inv.removePid (pid : Pid) : (s.removePid pid).2.Inv ∧
    (s.removePid pid).1 = decide (pid ∈ s.jobs) ∧ Drops pid s.rq (s.removePid pid).2.rq ∧
      ∀ q, q ≠ pid → (s.removePid pid).2.tasks q = s.tasks q := by
  by_cases hpid : pid ∈ s.jobs
  · obtain ⟨rq', tasks', hrq, hl, hmin⟩ := h.holds.removePid h.nodup hpid
    rw [QueueRun.removePid, hrq]
    refine ⟨h.leaves hpid hl (hmin ▸ h.minVruntime), by simp [hpid], hl.toDrops, fun q hq => ?_⟩
    rw [hl.tasks]
    exact update_of_ne hq _ _
  have hjobs : s.jobs.filter (· ≠ pid) = s.jobs := filter_pid_eq_self (g := fun q => q) (by rwa [map_id'])
  rw [QueueRun.removePid, removePid_of_not_mem (mt h.holds.mem_pids.mp hpid)]
  simp only [hjobs]
  have hout : ∀ {c}, pid ∉ ofClass s.tasks s.jobs c := fun hmem => hpid (mem_ofClass.mp hmem).1
  refine ⟨h, by simp [hpid], ⟨?_, ?_, ?_, ?_, ?_⟩, fun q _ => trivial⟩
  · exact (filter_pid_eq_self (h.holds.dlPids ▸ hout)).symm
  · exact (filter_pid_eq_self (h.holds.rtPids ▸ hout)).symm
  · exact (filter_pid_eq_self (h.holds.cfsPids ▸ hout)).symm
  · exact (filter_pid_eq_self (h.holds.batchPids ▸ hout)).symm
  · exact (filter_pid_eq_self (h.holds.idlePids ▸ hout)).symm

theorem Inv.setSched (hpid : pid ∉ s.jobs) (t : SchedEntity) :
    ({ s with tasks := update s.tasks pid { t with onRq := (s.tasks pid).onRq } } : QueueRun).Inv := by
  have hkept : ∀ q ∈ s.jobs, update s.tasks pid { t with onRq := (s.tasks pid).onRq } q = s.tasks q :=
    fun q hq => update_of_ne (ne_of_mem_of_not_mem hq hpid) _ _
  have hsame : ∀ q ∈ s.jobs, SameParams (s.tasks q) (update s.tasks pid { t with onRq := (s.tasks pid).onRq } q) := by
    intro q hq
    rw [hkept q hq]
    exact ⟨rfl, rfl, rfl, rfl, rfl⟩
  refine ⟨h.nodup, h.holds.congr hsame, h.stamped, h.seq, h.nr, ?_, fun q => ?_, fun q hq => ?_⟩
  · rw [totalWeight_congr fun q hq => (hsame q hq).2.2.2.2]
    exact h.load
  · rw [← h.onRq q]
    by_cases hq : q = pid
    · simp [hq]
    · simp [hq]
  · rw [ofClass_congr hsame] at hq
    refine (h.minVruntime q hq).trans_eq ?_
    exact congrArg SchedEntity.vruntime (hkept q (mem_ofClass.mp hq).1).symm

theorem Inv.step {e : QueueEvent} (hok : s.proper e) (hs : s.step e = some t) : t.Inv := by
  cases e with
  | enqueue pid =>
    cases hs
    have hok : pid ∉ s.jobs ∧ s.enqueues + 1 < 2 ^ 64 := of_decide_eq_true hok
    exact h.enqueue hok.1 hok.2
  | dequeueNext i =>
    obtain ⟨⟨next, t'⟩, hd, rfl⟩ := Option.map_eq_some_iff.mp hs
    exact (h.dequeueNext hd).1
  | removePid pid =>
    cases hs
    exact (h.removePid pid).1
  | setSched pid t =>
    cases hs
    exact h.setSched (of_decide_eq_true hok) t

end

/-- A removal leaves the other entries of each heap, in any order, and those of the idle queue in theirs. -/
structure Without (p : Pid) (rq rq' : RunQueue) : Prop where
  dl : rq'.dlHeap ~ rq.dlHeap.filter (·.pid ≠ p)
  rt : rq'.rtHeap ~ rq.rtHeap.filter (·.pid ≠ p)
  cfs : rq'.cfsHeap ~ rq.cfsHeap.filter (·.pid ≠ p)
  batch : rq'.batchHeap ~ rq.batchHeap.filter (·.pid ≠ p)
  idle : rq'.idleQueue = rq.idleQueue.filter (· ≠ p)

theorem Without.of_drops {rq rq' : RunQueue} (h : Drops pid rq rq') : Without pid rq rq' :=
  ⟨.of_eq h.dl, .of_eq h.rt, .of_eq h.cfs, .of_eq h.batch, h.idle⟩

/-- The queue is the multi-class priority queue of the tasks that have arrived and not left. -/
structure Refines (s : QueueRun) : Prop where
  queued : Holds s.rq s.tasks s.jobs ∧ s.jobs.Nodup
  nr : s.rq.nrRunning.toNat = s.jobs.length
  load : s.rq.loadWeight.toNat = totalWeight s.tasks s.jobs
  onRq : ∀ p, (s.tasks p).onRq = true ↔ p ∈ s.jobs
  next : ∀ i next t, s.dequeueNext i = some (next, t) →
    (s.jobs = [] ∧ next = none) ∨ ∃ p, next = some p ∧ Served s.tasks s.jobs p
  hasNext : ∃ i r, s.dequeueNext i = some r
  minVruntime : ∀ p ∈ s.jobs, (s.tasks p).policy = .normal → s.rq.minVruntime ≤ (s.tasks p).vruntime
  remove : ∀ pid, (s.removePid pid).1 = decide (pid ∈ s.jobs) ∧ Without pid s.rq (s.removePid pid).2.rq ∧
    ∀ q, q ≠ pid → (s.removePid pid).2.tasks q = s.tasks q

/-- In every run the run queue is the multi-class priority queue of its tasks. -/
theorem run_queue_refines (tasks : Tasks) (s : QueueRun)
    (h : Reach (fun s e t => s.step e = some t) (fun s e => s.proper e = true) (new tasks) s) : s.Refines := by
  have hinv := h.invariant (inv_new tasks) fun _ _ _ hu hok hs => hu.step hok hs
  refine ⟨⟨hinv.holds, hinv.nodup⟩, hinv.nr, hinv.load, hinv.onRq, fun i next t hd => (hinv.dequeueNext hd).2, ?_, ?_,
    fun pid => (hinv.removePid pid).2.imp_right (.imp_left .of_drops)⟩
  · obtain ⟨i, r, hr⟩ := exists_dequeueNext s.rq s.tasks
    exact ⟨i, _, by rw [QueueRun.dequeueNext, hr]; rfl⟩
  · intro p hp hpol
    refine hinv.minVruntime p (mem_ofClass.mpr ⟨hp, ?_⟩)
    rw [classOf, hpol, SchedPolicy.schedClass]

/-- A real-time task and three normal ones arrive, one is removed and two are taken. -/
theorem run_queue_refines_four : ∃ s, Reach.run QueueRun.step QueueRun.proper (new fun _ => .new 0)
    [.setSched ⟨4, by decide⟩ { SchedEntity.new (-5) with policy := .rr, rtPriority := 7 }, .enqueue ⟨1, by decide⟩,
      .enqueue ⟨2, by decide⟩, .enqueue ⟨3, by decide⟩, .enqueue ⟨4, by decide⟩, .removePid ⟨2, by decide⟩,
      .dequeueNext 0, .dequeueNext 1] = some s ∧ s.jobs = [⟨1, by decide⟩] ∧ s.Refines := by
  exact Reach.exists_run_and (by decide +kernel) fun s hs hjobs => ⟨hjobs, run_queue_refines _ s hs⟩

end QueueRun

end Moxide.Scheduler
