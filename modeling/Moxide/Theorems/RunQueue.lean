import Moxide.Lib.Keyed
import Moxide.Lib.PrioQueue
import Moxide.Lib.Reach
import Moxide.Lib.Word
import Moxide.RunQueue

/-! The run queue of one CPU: what its heaps hold, and which task each operation puts in, takes or removes. -/

namespace Moxide.Scheduler
open Function (update update_of_ne update_self)
open Lib List RunQueue

theorem scaleWeight_le : ∀ n ≤ 20, scaleWeight 5 4 n NICE0_WEIGHT ≤ 100000 ∧ scaleWeight 4 5 n NICE0_WEIGHT ≤ 100000 := by
  decide

theorem niceToWeight_le (nice : Int8) : (niceToWeight nice).toNat ≤ 100000 := by
  have hle : niceToWeight nice ≤ 100000 := by
    simp only [niceToWeight]
    generalize hn : max (-20) (min 19 nice.toInt) = n
    split
    · decide
    split
    · change (if scaleWeight 4 5 n.toNat NICE0_WEIGHT ≤ 1 then 1 else scaleWeight 4 5 n.toNat NICE0_WEIGHT) ≤ 100000
      split
      · decide
      · exact (scaleWeight_le n.toNat (by omega)).2
    · exact (scaleWeight_le (-n).toNat (by omega)).1
  exact hle

theorem SchedEntity.weight_le (t : SchedEntity) : t.weight.toNat ≤ 100000 := by
  rw [t.weight_eq]
  exact niceToWeight_le t.nice

theorem length_lt_of_nodup {l : List Pid} (h : l.Nodup) : l.length < 2 ^ 32 := by
  have hinj : Function.Injective fun p : Pid => p.1.toNat :=
    fun p q hpq => Subtype.ext (UInt32.toNat_inj.mp hpq)
  have hsub : l.map (fun p => p.1.toNat) ⊆ List.range' 1 (2 ^ 32 - 1) := by
    intro n hn
    obtain ⟨p, -, rfl⟩ := mem_map.mp hn
    have hpos : p.1.toNat ≠ 0 := fun hzero => p.2 (UInt32.toNat_inj.mp hzero)
    have hlt := p.1.toNat_lt
    rw [mem_range'_1]
    omega
  have hlen := (subperm_of_subset (List.Nodup.map hinj h) hsub).length_le
  rw [length_map, length_range'] at hlen
  omega

section heaps
variable {α : Type} {g : α → Pid} {le : α → α → Bool} {l : List α} {i : Nat} {e : α}

theorem eraseIdx_eq_filter (hnodup : (l.map g).Nodup) (he : l[i]? = some e) : l.eraseIdx i = l.filter (g · ≠ g e) := by
  classical
  obtain ⟨hi, rfl⟩ := List.getElem?_eq_some_iff.mp he
  rw [← hnodup.of_map.erase_getElem i hi]
  exact Keyed.erase_eq_filter hnodup (getElem_mem hi)

theorem pop_some {heap : List α} (h : pop le l i = some (e, heap)) :
    l[i]? = some e ∧ (∀ x ∈ l, le x e) ∧ heap = l.eraseIdx i := by
  rw [pop] at h
  split at h
  · cases h
  case h_2 e' he' =>
    split at h
    case isTrue hall =>
      cases h
      exact ⟨he', all_eq_true.mp hall, rfl⟩
    case isFalse => cases h

theorem pop_min {κ : Type} [LE κ] {pids : List Pid} {entry : Pid → α} {k : Pid → κ} {heap : List α}
    (hpid : ∀ p, g (entry p) = p) (hle : ∀ p q, le (entry p) (entry q) → k q ≤ k p)
    (hl : l = pids.map entry) (hnodup : pids.Nodup) (h : pop le l i = some (e, heap)) :
    g e ∈ pids ∧ (∀ q ∈ pids, k (g e) ≤ k q) ∧ heap = l.filter (g · ≠ g e) := by
  obtain ⟨he, hmax, rfl⟩ := pop_some h
  have hmap : l.map g = pids := by
    rw [hl, map_map]
    exact (map_congr_left fun p _ => hpid p).trans (map_id _)
  obtain ⟨p, hp, rfl⟩ := mem_map.mp (hl ▸ mem_of_getElem? he)
  refine ⟨(hpid p).symm ▸ hp, fun q hq => ?_, eraseIdx_eq_filter (hmap ▸ hnodup) he⟩
  rw [hpid]
  exact hle q p (hmax _ (hl ▸ mem_map_of_mem hq))

theorem exists_pop (htotal : ∀ a b, le a b ∨ le b a)
    (htrans : ∀ a b c, le a b → le b c → le a c) (hne : l ≠ []) : ∃ i r, pop le l i = some r := by
  have hmax : ∃ e ∈ l, ∀ x ∈ l, le x e := by
    induction l with
    | nil => exact absurd rfl hne
    | cons x l ih =>
      by_cases hl : l = []
      · refine ⟨x, mem_cons_self, ?_⟩
        subst hl
        simpa using htotal x x
      obtain ⟨e, he, hall⟩ := ih hl
      rcases htotal x e with hxe | hex
      · exact ⟨e, mem_cons_of_mem x he, forall_mem_cons.mpr ⟨hxe, hall⟩⟩
      · refine ⟨x, mem_cons_self, forall_mem_cons.mpr ⟨by simpa using htotal x x, ?_⟩⟩
        exact fun y hy => htrans y e x (hall y hy) hex
  obtain ⟨e, he, hall⟩ := hmax
  obtain ⟨i, hi⟩ := mem_iff_getElem?.mp he
  exact ⟨i, _, by rw [pop, hi]; exact if_pos (all_eq_true.mpr hall)⟩

end heaps

/-! ### Classes -/

inductive SchedClass where
  | deadline | realtime | normal | batch | idle
  deriving DecidableEq

def SchedPolicy.schedClass : SchedPolicy → SchedClass
  | .deadline => .deadline
  | .fifo | .rr => .realtime
  | .normal => .normal
  | .batch => .batch
  | .idle => .idle

def SchedClass.rank : SchedClass → Nat
  | .deadline => 4
  | .realtime => 3
  | .normal => 2
  | .batch => 1
  | .idle => 0

def classOf (tasks : Tasks) (p : Pid) : SchedClass := (tasks p).policy.schedClass

def ofClass (tasks : Tasks) (jobs : List Pid) (c : SchedClass) : List Pid := jobs.filter (classOf tasks · = c)

variable {tasks tasks' : Tasks} {jobs : List Pid} {rq rq' : RunQueue} {p : Pid} {c : SchedClass} {c' : SchedClass}
  {next : Option Pid} {pid : Pid}

theorem mem_ofClass : p ∈ ofClass tasks jobs c ↔ p ∈ jobs ∧ classOf tasks p = c := by simp [ofClass]

theorem ofClass_filter (q : Pid) : ofClass tasks (jobs.filter (· ≠ q)) c = (ofClass tasks jobs c).filter (· ≠ q) := by
  rw [ofClass, ofClass, filter_filter, filter_filter]
  exact filter_congr fun x _ => Bool.and_comm _ _

def SameParams (t t' : SchedEntity) : Prop :=
  t'.policy = t.policy ∧ t'.dlAbsDeadline = t.dlAbsDeadline ∧ t'.rtPriority = t.rtPriority ∧ t'.vruntime = t.vruntime ∧
    t'.weight = t.weight

theorem ofClass_congr (h : ∀ p ∈ jobs, SameParams (tasks p) (tasks' p)) : ofClass tasks' jobs c = ofClass tasks jobs c := by
  refine filter_congr fun x hx => ?_
  rw [classOf, classOf, (h x hx).1]

structure Holds (rq : RunQueue) (tasks : Tasks) (jobs : List Pid) : Prop where
  dl : rq.dlHeap = (ofClass tasks jobs .deadline).map fun p => ⟨(tasks p).dlAbsDeadline, p⟩
  rt : rq.rtHeap.map (fun e => (e.rtPriority, e.pid)) =
    (ofClass tasks jobs .realtime).map fun p => ((tasks p).rtPriority, p)
  cfs : rq.cfsHeap = (ofClass tasks jobs .normal).map fun p => ⟨(tasks p).vruntime, p⟩
  batch : rq.batchHeap = (ofClass tasks jobs .batch).map fun p => ⟨(tasks p).vruntime, p⟩
  idle : rq.idleQueue = ofClass tasks jobs .idle

namespace Holds

theorem new (tasks : Tasks) : Holds .new tasks [] := ⟨rfl, rfl, rfl, rfl, rfl⟩

section
variable (h : Holds rq tasks jobs)
include h

theorem congr (hsame : ∀ p ∈ jobs, SameParams (tasks p) (tasks' p)) : Holds rq tasks' jobs := by
  have hmem : ∀ {p c}, p ∈ ofClass tasks jobs c → SameParams (tasks p) (tasks' p) :=
    fun hp => hsame _ (mem_ofClass.mp hp).1
  constructor <;> rw [ofClass_congr hsame]
  · rw [h.dl]
    exact map_congr_left fun p hp => by rw [(hmem hp).2.1]
  · rw [h.rt]
    exact map_congr_left fun p hp => by rw [(hmem hp).2.2.1]
  · rw [h.cfs]
    exact map_congr_left fun p hp => by rw [(hmem hp).2.2.2.1]
  · rw [h.batch]
    exact map_congr_left fun p hp => by rw [(hmem hp).2.2.2.1]
  · exact h.idle

theorem dlPids : rq.dlHeap.map (·.pid) = ofClass tasks jobs .deadline := by
  rw [h.dl, map_map]
  exact map_id _

theorem rtPids : rq.rtHeap.map (·.pid) = ofClass tasks jobs .realtime := by
  have := congrArg (List.map Prod.snd) h.rt
  rw [map_map, map_map] at this
  exact this.trans (map_id _)

theorem cfsPids : rq.cfsHeap.map (·.pid) = ofClass tasks jobs .normal := by
  rw [h.cfs, map_map]
  exact map_id _

theorem batchPids : rq.batchHeap.map (·.pid) = ofClass tasks jobs .batch := by
  rw [h.batch, map_map]
  exact map_id _

theorem idlePids : rq.idleQueue.map (fun q => q) = ofClass tasks jobs .idle := by
  rw [map_id', h.idle]

theorem rt_priority {e : RtEntry} (he : e ∈ rq.rtHeap) : (tasks e.pid).rtPriority = e.rtPriority := by
  have hmem : (e.rtPriority, e.pid) ∈ (ofClass tasks jobs .realtime).map fun p => ((tasks p).rtPriority, p) :=
    h.rt ▸ mem_map_of_mem he
  obtain ⟨p, -, hp⟩ := mem_map.mp hmem
  obtain ⟨hprio, rfl⟩ := Prod.mk.inj hp
  exact hprio

end

end Holds

/-! ### A task leaves -/

structure Drops (p : Pid) (rq rq' : RunQueue) : Prop where
  dl : rq'.dlHeap = rq.dlHeap.filter (·.pid ≠ p)
  rt : rq'.rtHeap = rq.rtHeap.filter (·.pid ≠ p)
  cfs : rq'.cfsHeap = rq.cfsHeap.filter (·.pid ≠ p)
  batch : rq'.batchHeap = rq.batchHeap.filter (·.pid ≠ p)
  idle : rq'.idleQueue = rq.idleQueue.filter (· ≠ p)

theorem Holds.drops (h : Holds rq tasks jobs) (hd : Drops p rq rq') : Holds rq' tasks (jobs.filter (· ≠ p)) := by
  constructor <;> rw [ofClass_filter]
  · rw [hd.dl, h.dl, filter_map]
    rfl
  · have hrt := congrArg (List.filter (fun x : UInt8 × Pid => x.2 ≠ p)) h.rt
    rw [filter_map, filter_map] at hrt
    rw [hd.rt]
    exact hrt
  · rw [hd.cfs, h.cfs, filter_map]
    rfl
  · rw [hd.batch, h.batch, filter_map]
    rfl
  · rw [hd.idle, h.idle]

theorem filter_pid_eq_self {α : Type} {g : α → Pid} {l : List α} (h : p ∉ l.map g) : l.filter (g · ≠ p) = l :=
  filter_eq_self.mpr fun x hx => by
    have : g x ≠ p := fun heq => h (heq ▸ mem_map_of_mem hx)
    simpa using this

theorem not_mem_ofClass (hp : classOf tasks p = c) (hne : c ≠ c') : p ∉ ofClass tasks jobs c' :=
  fun hmem => hne (hp.symm.trans (mem_ofClass.mp hmem).2)

theorem filter_of_class {α : Type} {g : α → Pid} {l l' : List α} (hmap : l.map g = ofClass tasks jobs c')
    (hp : classOf tasks p = c) (hl : l' = if c = c' then l.filter (g · ≠ p) else l) : l' = l.filter (g · ≠ p) := by
  rw [hl]
  split
  · rfl
  case isFalse hne => exact (filter_pid_eq_self (hmap ▸ not_mem_ofClass hp hne)).symm

theorem Holds.drops_of_class (h : Holds rq tasks jobs) (hp : classOf tasks p = c)
    (hdl : rq'.dlHeap = if c = .deadline then rq.dlHeap.filter (·.pid ≠ p) else rq.dlHeap)
    (hrt : rq'.rtHeap = if c = .realtime then rq.rtHeap.filter (·.pid ≠ p) else rq.rtHeap)
    (hcfs : rq'.cfsHeap = if c = .normal then rq.cfsHeap.filter (·.pid ≠ p) else rq.cfsHeap)
    (hbatch : rq'.batchHeap = if c = .batch then rq.batchHeap.filter (·.pid ≠ p) else rq.batchHeap)
    (hidle : rq'.idleQueue = if c = .idle then rq.idleQueue.filter (· ≠ p) else rq.idleQueue) : Drops p rq rq' :=
  ⟨filter_of_class h.dlPids hp hdl, filter_of_class h.rtPids hp hrt, filter_of_class h.cfsPids hp hcfs,
    filter_of_class h.batchPids hp hbatch, filter_of_class h.idlePids hp hidle⟩

structure Leaves (p : Pid) (rq : RunQueue) (tasks : Tasks) (rq' : RunQueue) (tasks' : Tasks) :
    Prop extends Drops p rq rq' where
  rtSeq : rq'.rtSeq = rq.rtSeq
  nr : rq'.nrRunning = saturatingSub32 rq.nrRunning 1
  load : rq'.loadWeight = saturatingSub64 rq.loadWeight (tasks p).weight
  tasks : tasks' = update tasks p { tasks p with onRq := false }

/-! ### Which task is taken -/

/-- The task is of the highest class that has tasks, and in its class one of minimal deadline, the earliest of highest
    priority, one of minimal vruntime, or the earliest. -/
def Served (tasks : Tasks) (jobs : List Pid) (p : Pid) : Prop :=
  p ∈ jobs ∧ (∀ q ∈ jobs, (classOf tasks q).rank ≤ (classOf tasks p).rank) ∧
    match classOf tasks p with
    | .deadline => ∀ q ∈ ofClass tasks jobs .deadline, (tasks p).dlAbsDeadline ≤ (tasks q).dlAbsDeadline
    | .realtime => PrioQueue.best (fun q => (tasks q).rtPriority.toNat) (ofClass tasks jobs .realtime) = some p
    | .normal => ∀ q ∈ ofClass tasks jobs .normal, (tasks p).vruntime ≤ (tasks q).vruntime
    | .batch => ∀ q ∈ ofClass tasks jobs .batch, (tasks p).vruntime ≤ (tasks q).vruntime
    | .idle => (ofClass tasks jobs .idle).head? = some p

structure Taken (jobs : List Pid) (p : Pid) (rq : RunQueue) (ts : Tasks) (rq' : RunQueue) (ts' : Tasks) : Prop
    extends Leaves p rq ts rq' ts' where
  minVruntime : rq'.minVruntime = rq.minVruntime ∨ classOf ts p = .normal ∧ rq'.minVruntime = (ts p).vruntime
  served : Served ts jobs p

theorem rank_le (hp : classOf tasks p = c) (habove : ∀ c', c.rank < c'.rank → ofClass tasks jobs c' = []) :
    ∀ q ∈ jobs, (classOf tasks q).rank ≤ (classOf tasks p).rank := by
  intro q hq
  by_contra hlt
  rw [hp, not_le] at hlt
  exact not_mem_nil (habove _ hlt ▸ mem_ofClass.mpr ⟨hq, rfl⟩)

structure Stamped (rq : RunQueue) : Prop where
  sorted : rq.rtHeap.Pairwise fun a b => a.enqueueSeq.toNat < b.enqueueSeq.toNat
  below : ∀ e ∈ rq.rtHeap, e.enqueueSeq.toNat < rq.rtSeq.toNat

section
variable {i : Nat} (h : Holds rq tasks jobs) (hnodup : jobs.Nodup)
include h hnodup

theorem Holds.dequeueDl (hd : rq.dequeueDl tasks i = some (p, rq', tasks')) : Taken jobs p rq tasks rq' tasks' := by
  obtain ⟨⟨e, heap⟩, hpop, heq⟩ := Option.map_eq_some_iff.mp hd
  obtain ⟨hmem, hmin, hheap⟩ := pop_min (g := DlEntry.pid) (k := fun q => (tasks q).dlAbsDeadline)
    (fun _ => rfl) (fun _ _ => of_decide_eq_true) h.dl (hnodup.filter _) hpop
  obtain ⟨rfl, rfl, rfl⟩ := heq
  obtain ⟨hjobs, hc⟩ := mem_ofClass.mp hmem
  refine ⟨⟨h.drops_of_class hc hheap rfl rfl rfl rfl, rfl, rfl, rfl, rfl⟩, .inl rfl, hjobs, rank_le hc fun c' hlt => ?_, ?_⟩
  · cases c' <;> simp [SchedClass.rank] at hlt
  · rw [hc]
    exact hmin

theorem Holds.dequeueRt (hstamped : Stamped rq) (hdl : ofClass tasks jobs .deadline = [])
    (hd : rq.dequeueRt tasks i = some (p, rq', tasks')) :
    Taken jobs p rq tasks rq' tasks' := by
  obtain ⟨⟨e, heap⟩, hpop, heq⟩ := Option.map_eq_some_iff.mp hd
  obtain ⟨he, hmax, hheap⟩ := pop_some hpop
  obtain ⟨rfl, rfl, rfl⟩ := heq
  have hmem := mem_of_getElem? he
  have hpids : (rq.rtHeap.map (·.pid)).Nodup := h.rtPids ▸ hnodup.filter _
  obtain ⟨hjobs, hc⟩ := mem_ofClass.mp (h.rtPids ▸ mem_map_of_mem hmem)
  refine ⟨⟨h.drops_of_class hc rfl (hheap.trans (eraseIdx_eq_filter hpids he)) rfl rfl rfl, rfl, rfl, rfl, rfl⟩,
    .inl rfl, hjobs, rank_le hc fun c' hlt => ?_, ?_⟩
  · cases c' <;> simp [SchedClass.rank] at hlt
    exact hdl
  · rw [hc]
    -- the greatest entry is the first of those with the highest priority
    have hle : ∀ x ∈ rq.rtHeap, x.rtPriority < e.rtPriority ∨
        x.rtPriority = e.rtPriority ∧ e.enqueueSeq ≤ x.enqueueSeq := by
      intro x hx
      simpa [RtEntry.le] using hmax x hx
    have hbest : PrioQueue.best (fun x : RtEntry => x.rtPriority.toNat) rq.rtHeap = some e := by
      refine PrioQueue.best_eq_some hstamped.sorted hmem (fun x hx => ?_) fun x hx heq => ?_
      · rcases hle x hx with hlt | ⟨heq, -⟩
        · exact le_of_lt hlt
        · exact heq ▸ le_refl _
      · rcases hle x hx with hlt | ⟨-, hseq⟩
        · exact absurd heq (ne_of_lt hlt)
        · exact hseq
    have hpid : PrioQueue.best (fun q => (tasks q).rtPriority.toNat) (rq.rtHeap.map (·.pid)) = some e.pid :=
      PrioQueue.best_map (fun x hx => by rw [h.rt_priority hx]) hbest
    rwa [h.rtPids] at hpid

section
variable (hdl : ofClass tasks jobs .deadline = [])
include hdl

section
variable (hrt : ofClass tasks jobs .realtime = [])
include hrt

theorem Holds.dequeueCfs (hd : rq.dequeueCfs tasks i = some (p, rq', tasks')) : Taken jobs p rq tasks rq' tasks' := by
  obtain ⟨⟨e, heap⟩, hpop, heq⟩ := Option.map_eq_some_iff.mp hd
  obtain ⟨hmem, hmin, hheap⟩ := pop_min (g := CfsEntry.pid) (k := fun q => (tasks q).vruntime)
    (fun _ => rfl) (fun _ _ => of_decide_eq_true) h.cfs (hnodup.filter _) hpop
  simp only [release, update_self, Prod.mk.injEq] at heq
  obtain ⟨rfl, rfl, rfl⟩ := heq
  obtain ⟨hjobs, hc⟩ := mem_ofClass.mp hmem
  have hserved : Served tasks jobs e.pid := by
    refine ⟨hjobs, rank_le hc fun c' hlt => ?_, ?_⟩
    · cases c' <;> simp [SchedClass.rank] at hlt <;> assumption
    · rw [hc]
      exact hmin
  split
  · exact ⟨⟨h.drops_of_class hc rfl rfl hheap rfl rfl, rfl, rfl, rfl, rfl⟩, .inr ⟨hc, rfl⟩, hserved⟩
  · exact ⟨⟨h.drops_of_class hc rfl rfl hheap rfl rfl, rfl, rfl, rfl, rfl⟩, .inl rfl, hserved⟩

variable (hcfs : ofClass tasks jobs .normal = [])
include hcfs

theorem Holds.dequeueBatch (hd : rq.dequeueBatch tasks i = some (p, rq', tasks')) : Taken jobs p rq tasks rq' tasks' := by
  obtain ⟨⟨e, heap⟩, hpop, heq⟩ := Option.map_eq_some_iff.mp hd
  obtain ⟨hmem, hmin, hheap⟩ := pop_min (g := CfsEntry.pid) (k := fun q => (tasks q).vruntime)
    (fun _ => rfl) (fun _ _ => of_decide_eq_true) h.batch (hnodup.filter _) hpop
  obtain ⟨rfl, rfl, rfl⟩ := heq
  obtain ⟨hjobs, hc⟩ := mem_ofClass.mp hmem
  refine ⟨⟨h.drops_of_class hc rfl rfl rfl hheap rfl, rfl, rfl, rfl, rfl⟩, .inl rfl, hjobs, rank_le hc fun c' hlt => ?_, ?_⟩
  · cases c' <;> simp [SchedClass.rank] at hlt <;> assumption
  · rw [hc]
    exact hmin

theorem Holds.dequeueIdle (hbatch : ofClass tasks jobs .batch = []) (hd : rq.dequeueIdle tasks = some (p, rq', tasks')) :
    Taken jobs p rq tasks rq' tasks' := by
  rw [RunQueue.dequeueIdle] at hd
  split at hd
  · cases hd
  case h_2 q rest hidle =>
    simp only [release, Option.some.injEq, Prod.mk.injEq] at hd
    obtain ⟨rfl, rfl, rfl⟩ := hd
    have hlist : ofClass tasks jobs .idle = q :: rest := h.idle ▸ hidle
    obtain ⟨hjobs, hc⟩ := mem_ofClass.mp (hlist ▸ mem_cons_self : q ∈ ofClass tasks jobs .idle)
    have hrest : q ∉ rest := (nodup_cons.mp (hlist ▸ hnodup.filter _ : (q :: rest).Nodup)).1
    have hfilter : rest = (q :: rest).filter (· ≠ q) := by
      rw [filter_cons_of_neg (by simp)]
      exact (filter_pid_eq_self (g := fun x => x) (by rwa [map_id'])).symm
    refine ⟨⟨h.drops_of_class hc rfl rfl rfl rfl ?_, rfl, rfl, rfl, rfl⟩, .inl rfl, hjobs, rank_le hc fun c' hlt => ?_, ?_⟩
    · rw [hidle]
      exact hfilter
    · cases c' <;> simp [SchedClass.rank] at hlt <;> assumption
    · rw [hc]
      simp only [hlist, head?_cons]

end

end

theorem Holds.dequeueNext (hstamped : Stamped rq) (hd : rq.dequeueNext tasks i = some (next, rq', tasks')) :
    (jobs = [] ∧ next = none ∧ rq' = rq ∧ tasks' = tasks) ∨ ∃ p, next = some p ∧ Taken jobs p rq tasks rq' tasks' := by
  have hfound : ∀ {o : Option (Pid × RunQueue × Tasks)}, o.map (fun x => (some x.1, x.2)) = some (next, rq', tasks') →
      ∃ p, next = some p ∧ o = some (p, rq', tasks') := by
    intro o ho
    obtain ⟨⟨p, r⟩, rfl, heq⟩ := Option.map_eq_some_iff.mp ho
    cases heq
    exact ⟨p, rfl, rfl⟩
  rw [RunQueue.dequeueNext] at hd
  split at hd
  · obtain ⟨p, rfl, hpop⟩ := hfound hd
    exact .inr ⟨p, rfl, h.dequeueDl hnodup hpop⟩
  rename_i hne
  have hdl : ofClass tasks jobs .deadline = [] := by rw [← h.dlPids, not_not.mp hne, map_nil]
  split at hd
  · obtain ⟨p, rfl, hpop⟩ := hfound hd
    exact .inr ⟨p, rfl, h.dequeueRt hnodup hstamped hdl hpop⟩
  rename_i hne
  have hrt : ofClass tasks jobs .realtime = [] := by rw [← h.rtPids, not_not.mp hne, map_nil]
  split at hd
  · obtain ⟨p, rfl, hpop⟩ := hfound hd
    exact .inr ⟨p, rfl, h.dequeueCfs hnodup hdl hrt hpop⟩
  rename_i hne
  have hcfs : ofClass tasks jobs .normal = [] := by rw [← h.cfsPids, not_not.mp hne, map_nil]
  split at hd
  · obtain ⟨p, rfl, hpop⟩ := hfound hd
    exact .inr ⟨p, rfl, h.dequeueBatch hnodup hdl hrt hcfs hpop⟩
  rename_i hne
  have hbatch : ofClass tasks jobs .batch = [] := by rw [← h.batchPids, not_not.mp hne, map_nil]
  split at hd
  · obtain ⟨p, rfl, hpop⟩ := hfound hd
    exact .inr ⟨p, rfl, h.dequeueIdle hnodup hdl hrt hcfs hbatch hpop⟩
  rename_i hne
  have hidle : ofClass tasks jobs .idle = [] := by rw [← h.idle, not_not.mp hne]
  cases hd
  refine .inl ⟨eq_nil_iff_forall_not_mem.mpr fun q hq => ?_, rfl, rfl, rfl⟩
  have hmem : q ∈ ofClass tasks jobs (classOf tasks q) := mem_ofClass.mpr ⟨hq, rfl⟩
  cases hc : classOf tasks q <;> simp_all

end

theorem exists_dequeueNext (rq : RunQueue) (tasks : Tasks) : ∃ i r, rq.dequeueNext tasks i = some r := by
  have hcfs : ∀ {l : List CfsEntry}, l ≠ [] → ∃ i r, pop CfsEntry.le l i = some r := by
    refine exists_pop (fun a b => ?_) fun a b c hab hbc => ?_
    · simpa [CfsEntry.le] using UInt64.le_total b.vruntime a.vruntime
    · simp only [CfsEntry.le, decide_eq_true_eq] at hab hbc ⊢
      exact UInt64.le_trans hbc hab
  have hdl : ∀ {l : List DlEntry}, l ≠ [] → ∃ i r, pop DlEntry.le l i = some r := by
    refine exists_pop (fun a b => ?_) fun a b c hab hbc => ?_
    · simpa [DlEntry.le] using UInt64.le_total b.absDeadline a.absDeadline
    · simp only [DlEntry.le, decide_eq_true_eq] at hab hbc ⊢
      exact UInt64.le_trans hbc hab
  have hrt : ∀ {l : List RtEntry}, l ≠ [] → ∃ i r, pop RtEntry.le l i = some r := by
    refine exists_pop (fun a b => ?_) fun a b c hab hbc => ?_
    · simp only [RtEntry.le, Bool.or_eq_true, Bool.and_eq_true, decide_eq_true_eq, UInt8.lt_iff_toNat_lt,
        ← UInt8.toNat_inj, UInt64.le_iff_toNat_le]
      omega
    · simp only [RtEntry.le, Bool.or_eq_true, Bool.and_eq_true, decide_eq_true_eq, UInt8.lt_iff_toNat_lt,
        ← UInt8.toNat_inj, UInt64.le_iff_toNat_le] at hab hbc ⊢
      omega
  simp only [dequeueNext]
  split
  case isTrue hne =>
    obtain ⟨i, r, hpop⟩ := hdl hne
    exact ⟨i, _, by rw [dequeueDl, hpop]; rfl⟩
  split
  case isTrue hne =>
    obtain ⟨i, r, hpop⟩ := hrt hne
    exact ⟨i, _, by rw [dequeueRt, hpop]; rfl⟩
  split
  case isTrue hne =>
    obtain ⟨i, r, hpop⟩ := hcfs hne
    exact ⟨i, _, by rw [dequeueCfs, hpop]; rfl⟩
  split
  case isTrue hne =>
    obtain ⟨i, r, hpop⟩ := hcfs hne
    exact ⟨i, _, by rw [dequeueBatch, hpop]; rfl⟩
  split
  case isTrue hne =>
    obtain ⟨p, rest, hidle⟩ := exists_cons_of_ne_nil hne
    exact ⟨0, _, by rw [dequeueIdle, hidle]; rfl⟩
  · exact ⟨0, _, rfl⟩

/-! ### `remove_pid` -/

section
variable {α : Type} {g : α → Pid} {l : List α}

theorem sweep_of_not_mem (h : p ∉ l.map g) : RunQueue.sweep g p rq tasks l = (l, false, rq, tasks) := by
  induction l with
  | nil => rfl
  | cons x l ih =>
    rw [map_cons, mem_cons, not_or] at h
    rw [sweep, if_neg (Ne.symm h.1), ih h.2]

theorem sweep_of_mem (hnodup : (l.map g).Nodup) (h : p ∈ l.map g) :
    RunQueue.sweep g p rq tasks l = (l.filter (g · ≠ p), true, rq.release tasks p) := by
  induction l with
  | nil => exact absurd h not_mem_nil
  | cons x l ih =>
    obtain ⟨hx, hl⟩ := nodup_cons.mp hnodup
    rw [sweep]
    split
    case isTrue heq =>
      subst heq
      rw [filter_cons_of_neg (by simp), filter_pid_eq_self hx]
      simp only [sweep_of_not_mem hx]
    case isFalse hne =>
      have hmem : p ∈ l.map g := (mem_cons.mp (map_cons ▸ h)).resolve_left (Ne.symm hne)
      rw [ih hl hmem, filter_cons_of_pos (by simpa using hne)]

end

theorem sweep_of_class {α : Type} {g : α → Pid} {l : List α} (hmap : l.map g = ofClass tasks jobs c) (hnodup : jobs.Nodup)
    (hp : p ∈ jobs) (rq : RunQueue) : RunQueue.sweep g p rq tasks l =
      if classOf tasks p = c then (l.filter (g · ≠ p), true, rq.release tasks p) else (l, false, rq, tasks) := by
  split
  case isTrue hc => exact sweep_of_mem (hmap ▸ hnodup.filter _) (hmap ▸ mem_ofClass.mpr ⟨hp, hc⟩)
  case isFalse hc => exact sweep_of_not_mem (hmap ▸ not_mem_ofClass rfl hc)

theorem Holds.removePid (h : Holds rq tasks jobs) (hnodup : jobs.Nodup) (hp : p ∈ jobs) :
    ∃ rq' tasks', rq.removePid tasks p = (true, rq', tasks') ∧ Leaves p rq tasks rq' tasks' ∧
      rq'.minVruntime = rq.minVruntime := by
  have hidle : classOf tasks p = .idle → p ∈ rq.idleQueue := fun hc => h.idle ▸ mem_ofClass.mpr ⟨hp, hc⟩
  have herase : rq.idleQueue.erase p = rq.idleQueue.filter (· ≠ p) := by
    have hidle : rq.idleQueue.Nodup := h.idle ▸ hnodup.filter _
    rw [hidle.erase_eq_filter]
    exact filter_congr fun x _ => by rw [Bool.eq_iff_iff, bne_iff_ne, decide_eq_true_eq]
  -- the heaps of other classes are rebuilt as they were
  cases hc : classOf tasks p <;>
    simp only [RunQueue.removePid, sweep_of_class h.rtPids hnodup hp, sweep_of_class h.cfsPids hnodup hp,
      sweep_of_class h.dlPids hnodup hp, sweep_of_class h.batchPids hnodup hp, hc, reduceCtorEq, release, if_true,
      if_false, Bool.false_eq_true]
  case idle =>
    rw [if_pos (hidle hc)]
    exact ⟨_, _, rfl, ⟨h.drops_of_class hc rfl rfl rfl rfl herase, rfl, rfl, rfl, rfl⟩, rfl⟩
  all_goals exact ⟨_, _, rfl, ⟨h.drops_of_class hc rfl rfl rfl rfl rfl, rfl, rfl, rfl, rfl⟩, rfl⟩

def RunQueue.pids (rq : RunQueue) : List Pid :=
  rq.dlHeap.map (·.pid) ++ rq.rtHeap.map (·.pid) ++ rq.cfsHeap.map (·.pid) ++ rq.batchHeap.map (·.pid) ++ rq.idleQueue

theorem removePid_of_not_mem (hp : p ∉ rq.pids) : rq.removePid tasks p = (false, rq, tasks) := by
  simp only [pids, mem_append, not_or] at hp
  obtain ⟨⟨⟨⟨hdl, hrt⟩, hcfs⟩, hbatch⟩, hidle⟩ := hp
  simp only [removePid, sweep_of_not_mem hrt, sweep_of_not_mem hcfs, sweep_of_not_mem hdl,
    sweep_of_not_mem hbatch, hidle, Bool.false_eq_true, if_false]

theorem Holds.mem_pids (h : Holds rq tasks jobs) : p ∈ rq.pids ↔ p ∈ jobs := by
  simp only [pids, h.dlPids, h.rtPids, h.cfsPids, h.batchPids, h.idle, mem_append, mem_ofClass]
  cases classOf tasks p <;> simp

theorem ofClass_append (q : Pid) : ofClass tasks (jobs ++ [q]) c =
    if classOf tasks q = c then ofClass tasks jobs c ++ [q] else ofClass tasks jobs c := by
  split <;> simp_all [ofClass]

theorem Holds.append (h : Holds rq tasks jobs) (hp : classOf tasks p = c)
    (hdl : rq'.dlHeap = if c = .deadline then rq.dlHeap ++ [⟨(tasks p).dlAbsDeadline, p⟩] else rq.dlHeap)
    (hrt : rq'.rtHeap = if c = .realtime then rq.rtHeap ++ [⟨(tasks p).rtPriority, rq.rtSeq, p⟩] else rq.rtHeap)
    (hcfs : rq'.cfsHeap = if c = .normal then rq.cfsHeap ++ [⟨(tasks p).vruntime, p⟩] else rq.cfsHeap)
    (hbatch : rq'.batchHeap = if c = .batch then rq.batchHeap ++ [⟨(tasks p).vruntime, p⟩] else rq.batchHeap)
    (hidle : rq'.idleQueue = if c = .idle then rq.idleQueue ++ [p] else rq.idleQueue) :
    Holds rq' tasks (jobs ++ [p]) := by
  constructor <;> rw [ofClass_append, hp]
  · rw [hdl, h.dl]
    split
    · rw [map_append, map_singleton]
    · rfl
  · rw [hrt]
    split
    · rw [map_append, map_append, h.rt, map_singleton, map_singleton]
    · exact h.rt
  · rw [hcfs, h.cfs]
    split
    · rw [map_append, map_singleton]
    · rfl
  · rw [hbatch, h.batch]
    split
    · rw [map_append, map_singleton]
    · rfl
  · rw [hidle, h.idle]

structure Arrives (p : Pid) (rq : RunQueue) (tasks : Tasks) (rq' : RunQueue) (tasks' : Tasks) : Prop where
  nr : rq'.nrRunning = rq.nrRunning + 1
  load : rq'.loadWeight = rq.loadWeight + (tasks p).weight
  minVruntime : rq'.minVruntime = rq.minVruntime
  stamp : rq'.rtHeap = rq.rtHeap ∧ rq'.rtSeq = rq.rtSeq ∨
    rq'.rtHeap = rq.rtHeap ++ [⟨(tasks p).rtPriority, rq.rtSeq, p⟩] ∧ rq'.rtSeq = rq.rtSeq + 1
  others : ∀ q, q ≠ p → tasks' q = tasks q
  self : (tasks' p).onRq = true ∧ (tasks' p).weight = (tasks p).weight ∧ (tasks' p).policy = (tasks p).policy
  clamped : classOf tasks p = .normal → rq.minVruntime ≤ (tasks' p).vruntime

theorem clampVruntime_le (rq : RunQueue) (t : SchedEntity) : rq.minVruntime ≤ (rq.clampVruntime t).vruntime := by
  rw [clampVruntime]
  split
  · exact UInt64.le_refl _
  case isFalse hlt => exact UInt64.not_lt.mp hlt

theorem clampVruntime_fields (rq : RunQueue) (t : SchedEntity) : (rq.clampVruntime t).onRq = t.onRq ∧
    (rq.clampVruntime t).weight = t.weight ∧ (rq.clampVruntime t).policy = t.policy := by
  rw [clampVruntime]
  split <;> exact ⟨rfl, rfl, rfl⟩

theorem Holds.enqueue (h : Holds rq tasks jobs) (hp : p ∉ jobs) :
    Holds (rq.enqueue tasks p).1 (rq.enqueue tasks p).2 (jobs ++ [p]) ∧
      Arrives p rq tasks (rq.enqueue tasks p).1 (rq.enqueue tasks p).2 := by
  -- a change of the task itself does not concern what is queued
  have hkeep : ∀ t, Holds rq (update tasks p t) jobs := by
    refine fun t => h.congr fun q hq => ?_
    have hne : q ≠ p := fun heq => hp (heq ▸ hq)
    rw [update_of_ne hne]
    exact ⟨rfl, rfl, rfl, rfl, rfl⟩
  have hother : ∀ t q, q ≠ p → update tasks p t q = tasks q := fun t q hq => update_of_ne hq _ _
  have hclass : ∀ {t c}, t.policy = (tasks p).policy → t.policy.schedClass = c →
      classOf (update tasks p t) p = c ∧ classOf tasks p = c := by
    intro t c ht hc
    rw [classOf, classOf, update_self, ← ht]
    exact ⟨hc, hc⟩
  have hself : ∀ {t}, t.onRq ∧ t.weight = (tasks p).weight ∧ t.policy = (tasks p).policy →
      (update tasks p t p).onRq ∧ (update tasks p t p).weight = (tasks p).weight ∧
        (update tasks p t p).policy = (tasks p).policy := by
    intro t ht
    rw [update_self]
    exact ht
  obtain ⟨hon, hweight, hpolicy⟩ := clampVruntime_fields
    { rq with nrRunning := rq.nrRunning + 1, loadWeight := rq.loadWeight + (tasks p).weight } { tasks p with onRq := true }
  generalize hr : rq.enqueue tasks p = r
  rw [RunQueue.enqueue] at hr
  split at hr
  case h_1 hpol =>
    obtain ⟨hc, hc'⟩ := hclass (t := { tasks p with onRq := true }) rfl (congrArg SchedPolicy.schedClass hpol)
    subst hr
    exact ⟨(hkeep _).append hc (by rw [update_self]; rfl) rfl rfl rfl rfl, rfl, rfl, rfl, .inl ⟨rfl, rfl⟩,
      hother _, hself ⟨rfl, rfl, rfl⟩, fun hn => nomatch hc'.symm.trans hn⟩
  case h_2 | h_3 =>
    rename_i hpol
    obtain ⟨hc, hc'⟩ := hclass (t := { tasks p with onRq := true }) rfl (congrArg SchedPolicy.schedClass hpol)
    subst hr
    exact ⟨(hkeep _).append hc rfl (by rw [update_self]; rfl) rfl rfl rfl, rfl, rfl, rfl, .inr ⟨rfl, rfl⟩,
      hother _, hself ⟨rfl, rfl, rfl⟩, fun hn => nomatch hc'.symm.trans hn⟩
  case h_4 hpol =>
    obtain ⟨hc, hc'⟩ := hclass hpolicy (congrArg SchedPolicy.schedClass (hpolicy.trans hpol))
    subst hr
    refine ⟨(hkeep _).append hc rfl rfl (by rw [update_self]; rfl) rfl rfl, rfl, rfl, rfl, .inl ⟨rfl, rfl⟩,
      hother _, hself ⟨hon, hweight, hpolicy⟩, fun _ => ?_⟩
    simp only [update_self]
    exact clampVruntime_le { rq with nrRunning := rq.nrRunning + 1, loadWeight := rq.loadWeight + (tasks p).weight } _
  case h_5 hpol =>
    obtain ⟨hc, hc'⟩ := hclass hpolicy (congrArg SchedPolicy.schedClass (hpolicy.trans hpol))
    subst hr
    exact ⟨(hkeep _).append hc rfl rfl rfl (by rw [update_self]; rfl) rfl, rfl, rfl, rfl, .inl ⟨rfl, rfl⟩,
      hother _, hself ⟨hon, hweight, hpolicy⟩, fun hn => nomatch hc'.symm.trans hn⟩
  case h_6 hpol =>
    obtain ⟨hc, hc'⟩ := hclass (t := { tasks p with onRq := true }) rfl (congrArg SchedPolicy.schedClass hpol)
    subst hr
    exact ⟨(hkeep _).append hc rfl rfl rfl rfl rfl, rfl, rfl, rfl, .inl ⟨rfl, rfl⟩,
      hother _, hself ⟨rfl, rfl, rfl⟩, fun hn => nomatch hc'.symm.trans hn⟩

end Moxide.Scheduler
