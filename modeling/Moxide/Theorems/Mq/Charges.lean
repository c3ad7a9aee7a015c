import Moxide.Lib.Tally
import Moxide.Theorems.Mq
import Moxide.Theorems.Mq.Names

/-! What should be charged to RLIMIT_MSGQUEUE: the tables of queues and descriptors, and the balance that calls keep. -/

namespace Moxide.Mq
open Function (update update_of_ne update_self)
open Lib List Option MqObject

/-! ### What should be charged -/

/-- What a queue and its messages cost their creator. -/
def MqInner.cost (inner : MqInner) : Nat :=
  inner.queueCharge.toNat + (inner.heap.map fun m => 48 + m.data.length).sum

def Call.inProgress : Call → Bool
  | .send c => match c.point with
    | .done _ => false
    | _ => true
  | .recv c => match c.point with
    | .received _ _ | .failed _ => false
    | _ => true

variable {oflag : UInt32}

namespace State
variable {s t : State}

/-- A name or an open descriptor still leads to the queue. -/
def Exists (s : State) (q : Nat) : Prop := (∃ name, s.queues name = some q) ∨ ∃ mqd e, s.mqds mqd = some e ∧ e.queue = q

open Classical in
noncomputable def owed (s : State) (pid : Nat) : Nat :=
  (s.objects.zipIdx.map fun x => if x.1.inner.creatorPid = pid ∧ s.Exists x.2 then x.1.inner.cost else 0).sum

/-- The count `MQ_BYTES` keeps for a process. -/
def level (s : State) (pid : Nat) : Nat := ((s.mqBytes pid).getD 0).toNat

def BytesExact (s : State) : Prop := ∀ pid, s.level pid = s.owed pid

def idle (s : State) : Bool := s.calls.all fun c => !c.inProgress

variable {pid : Nat}

theorem level_update {f : Nat → Option UInt64} {v : UInt64} (h : t.mqBytes = update f pid (some v))
    (p : Nat) : t.level p = if p = pid then v.toNat else ((f p).getD 0).toNat := by
  rw [level, h]
  by_cases hp : p = pid
  · rw [if_pos hp, hp, update_self, getD_some]
  · rw [if_neg hp, update_of_ne hp]

theorem level_charge {soft : UInt64} {bytes : UInt64} (hfit : s.level pid + bytes.toNat < 2 ^ 64) (p : Nat) :
    (s.mqBytesCharge soft pid bytes).1.level p =
      s.level p + if p = pid ∧ (s.mqBytesCharge soft pid bytes).2 = 0 then bytes.toNat else 0 := by
  simp only [mqBytesCharge]
  split
  · by_cases hp : p = pid
    · simp [hp, level]
    · simp [hp, level]
  have hsum : (saturatingAdd ((s.mqBytes pid).getD 0) bytes).toNat = s.level pid + bytes.toNat := by
    rw [level] at hfit
    rw [saturatingAdd, if_pos hfit, UInt64.toNat_add, Nat.mod_eq_of_lt hfit, level]
  rw [level_update rfl p, hsum]
  by_cases hp : p = pid
  · simp [hp]
  · rw [if_neg hp, if_neg (by simp [hp])]
    rfl

theorem level_discharge {bytes : UInt64} (hle : bytes.toNat ≤ s.level pid) (p : Nat) :
    (s.mqBytesDischarge pid bytes).level p + (if p = pid then bytes.toNat else 0) = s.level p := by
  simp only [mqBytesDischarge]
  split
  · rename_i hnone
    rw [level, hnone] at hle
    have hzero : bytes.toNat = 0 := Nat.le_zero.mp hle
    rw [hzero, ite_self]
    rfl
  rename_i v hv
  rw [level, hv, getD_some] at hle
  have hsub : (saturatingSub v bytes).toNat = v.toNat - bytes.toNat := by
    rw [saturatingSub, if_pos (UInt64.le_iff_toNat_le.mpr hle), UInt64.toNat_sub_of_le _ _ (UInt64.le_iff_toNat_le.mpr hle)]
  rw [level_update rfl p, hsub]
  by_cases hp : p = pid
  · subst hp
    rw [if_pos rfl, if_pos rfl, level, hv]
    exact Nat.sub_add_cancel hle
  · rw [if_neg hp, if_neg hp]
    rfl

/-! ### The tables -/

end State

namespace State
variable {s t : State}

def Descriptors (s : State) (q : Nat) (l : List UInt64) : Prop := l.Nodup ∧ ∀ m, m ∈ l ↔ (s.mqds m).map (·.queue) = some q

structure Tables (s : State) : Prop where
  descriptors : ∀ q (o : MqObject), s.objects[q]? = some o → ∃ l, s.Descriptors q l ∧ l.length = o.refs
  inRange : ∀ m e, s.mqds m = some e → e.queue < s.objects.length
  below : ∀ m e, s.mqds m = some e → m.toNat < s.nextMqd.toNat
  named : ∀ name q, s.queues name = some q →
    ∃ o : MqObject, s.objects[q]? = some o ∧ o.name = name ∧ o.refs ≠ 0 ∧ o.inner.unlinked = false
  reserved : ∀ o ∈ s.objects, 0 < o.inner.queueCharge.toNat

variable {q : Nat}

theorem skeleton_of_eq (h : t.objects.map MqObject.skeleton = s.objects.map MqObject.skeleton) {o : MqObject}
    (ho : t.objects[q]? = some o) : ∃ o', s.objects[q]? = some o' ∧ o'.skeleton = o.skeleton := by
  have hq : (s.objects.map skeleton)[q]? = some o.skeleton := by rw [← h, getElem?_map, ho]; rfl
  rw [getElem?_map] at hq
  exact map_eq_some_iff.mp hq

section
variable (h : s.Tables)
include h

theorem Tables.keep (hm : t.mqds = s.mqds) (hn : t.nextMqd = s.nextMqd) (hlen : t.objects.length = s.objects.length)
    (hget : ∀ (q : Nat) (o : MqObject), t.objects[q]? = some o → ∃ o', s.objects[q]? = some o' ∧ o'.refs = o.refs ∧
      o'.inner.queueCharge = o.inner.queueCharge)
    (hnames : ∀ name q, t.queues name = some q →
      ∃ o : MqObject, t.objects[q]? = some o ∧ o.name = name ∧ o.refs ≠ 0 ∧ o.inner.unlinked = false) : t.Tables := by
  refine ⟨?_, ?_, ?_, hnames, ?_⟩
  · intro q o hqo
    obtain ⟨o', ho', hrefs, -⟩ := hget q o hqo
    obtain ⟨l, hl, hlen⟩ := h.descriptors q o' ho'
    refine ⟨l, ⟨hl.1, fun m => ?_⟩, hlen.trans hrefs⟩
    rw [hm]
    exact hl.2 m
  · rw [hm, hlen]
    exact h.inRange
  · rw [hm, hn]
    exact h.below
  · intro o hmem
    obtain ⟨q, hqo⟩ := getElem?_of_mem hmem
    obtain ⟨o', ho', -, hcharge⟩ := hget q o hqo
    rw [← hcharge]
    exact h.reserved o' (mem_of_getElem? ho')

theorem Tables.same (hst : s.SameTables t) : t.Tables := by
  refine h.keep hst.mqds hst.nextMqd (by simpa using congrArg List.length hst.skeletons) ?_ ?_
  · intro q o hqo
    obtain ⟨o', ho', hsk⟩ := skeleton_of_eq hst.skeletons hqo
    simp only [skeleton, Prod.mk.injEq] at hsk
    exact ⟨o', ho', hsk.2.1, hsk.2.2.2.2⟩
  · intro name q hname
    rw [hst.queues] at hname
    obtain ⟨o, hqo, hnm, hrefs, hun⟩ := h.named name q hname
    obtain ⟨o', ho', hsk⟩ := skeleton_of_eq hst.skeletons.symm hqo
    simp only [skeleton, Prod.mk.injEq] at hsk
    exact ⟨o', ho', hsk.1.trans hnm, hsk.2.1 ▸ hrefs, hsk.2.2.1.trans hun⟩

theorem Tables.unlink {name : String} (hq : s.queues name = some q) (hm : t.mqds = s.mqds) (hn : t.nextMqd = s.nextMqd)
    (ho : t.objects = (s.setInner q fun inner => { inner with unlinked := true }).objects)
    (hqueues : t.queues = update s.queues name none) : t.Tables := by
  refine h.keep hm hn (by rw [ho, setInner, length_modify]) ?_ ?_
  · intro p o hp
    rw [ho, setInner, getElem?_modify] at hp
    obtain ⟨o', ho', rfl⟩ := map_eq_some_iff.mp hp
    refine ⟨o', ho', ?_⟩
    split
    · exact ⟨rfl, rfl⟩
    · exact ⟨rfl, rfl⟩
  · intro name' p hp
    by_cases heq : name' = name
    · rw [hqueues, heq, update_self] at hp
      cases hp
    rw [hqueues, update_of_ne heq] at hp
    obtain ⟨o, hqo, hnm, -, -⟩ := h.named name q hq
    obtain ⟨o', hpo, hnm', hrefs, hun⟩ := h.named name' p hp
    have hne : q ≠ p := by
      rintro rfl
      rw [hqo] at hpo
      cases hpo
      exact heq (hnm'.symm.trans hnm)
    exact ⟨o', by rw [ho, setInner, getElem?_modify_ne _ _ hne, hpo], hnm', hrefs, hun⟩

theorem Tables.fresh : s.mqds s.nextMqd = none := by
  by_contra hne
  obtain ⟨e, he⟩ := ne_none_iff_exists'.mp hne
  exact lt_irrefl _ (h.below _ e he)

theorem Tables.exists_iff {o : MqObject} (ho : s.objects[q]? = some o) : s.Exists q ↔ o.refs ≠ 0 := by
  obtain ⟨l, ⟨-, hmem⟩, hlen⟩ := h.descriptors q o ho
  rw [← hlen]
  constructor
  · rintro (⟨name, hname⟩ | ⟨m, e, he, rfl⟩)
    · obtain ⟨o', ho', -, hrefs, -⟩ := h.named name q hname
      rw [ho] at ho'
      cases ho'
      rwa [hlen]
    · have hm : m ∈ l := (hmem m).mpr (by rw [he]; rfl)
      exact ne_of_gt (length_pos_of_mem hm)
  · intro hne
    obtain ⟨m, hm⟩ := exists_mem_of_length_pos (Nat.pos_of_ne_zero hne)
    obtain ⟨e, he, heq⟩ := map_eq_some_iff.mp ((hmem m).mp hm)
    exact .inr ⟨m, e, he, heq⟩

theorem Tables.alloc (hmax : s.nextMqd ≠ 0xFFFFFFFFFFFFFFFF)
    (hmqds : t.mqds = update s.mqds s.nextMqd (some ⟨s.nextMqd, oflag, q⟩)) (hnext : t.nextMqd = s.nextMqd + 1)
    (hq : q < t.objects.length) (hle : s.objects.length ≤ t.objects.length)
    (hold : ∀ p, p ≠ q → ∀ o, t.objects[p]? = some o → s.objects[p]? = some o)
    (hnew : ∀ o : MqObject, t.objects[q]? = some o → 0 < o.inner.queueCharge.toNat ∧ ∃ l, s.Descriptors q l ∧
      l.length + 1 = o.refs)
    (hnames : ∀ name p, t.queues name = some p → ∃ o : MqObject, t.objects[p]? = some o ∧ o.name = name ∧ o.refs ≠ 0 ∧
      o.inner.unlinked = false) :
    t.Tables := by
  refine ⟨?_, ?_, ?_, hnames, ?_⟩
  · intro p o ho
    by_cases hp : p = q
    · subst hp
      obtain ⟨-, l, ⟨hnodup, hmem⟩, hlen⟩ := hnew o ho
      refine ⟨s.nextMqd :: l, ⟨nodup_cons.mpr ⟨?_, hnodup⟩, ?_⟩, hlen⟩
      · rw [hmem, h.fresh]
        exact fun hf => nomatch hf
      · intro m
        rw [mem_cons, hmem, hmqds]
        by_cases hm : m = s.nextMqd
        · simp [hm]
        · simp [hm]
    · obtain ⟨l, ⟨hnodup, hmem⟩, hlen⟩ := h.descriptors p o (hold p hp o ho)
      refine ⟨l, ⟨hnodup, ?_⟩, hlen⟩
      intro m
      rw [hmem, hmqds]
      by_cases hm : m = s.nextMqd
      · subst hm
        simp [h.fresh, Ne.symm hp]
      · simp [hm]
  · intro m e he
    rw [hmqds] at he
    by_cases hm : m = s.nextMqd
    · rw [hm, update_self] at he
      cases he
      exact hq
    · rw [update_of_ne hm] at he
      exact (h.inRange m e he).trans_le hle
  · intro m e he
    rw [hnext, Word.toNat_add_one hmax]
    rw [hmqds] at he
    by_cases hm : m = s.nextMqd
    · exact hm ▸ Nat.lt_succ_self _
    · rw [update_of_ne hm] at he
      exact (h.below m e he).trans (Nat.lt_succ_self _)
  · intro o hmem
    obtain ⟨p, hp⟩ := getElem?_of_mem hmem
    by_cases hpq : p = q
    · exact (hnew o (hpq ▸ hp)).1
    · exact h.reserved o (mem_of_getElem? (hold p hpq o hp))

theorem Tables.close {mqd : UInt64} {e : MqdEntry} {o : MqObject} (he : s.mqds mqd = some e)
    (ho : s.objects[e.queue]? = some o) (hmqds : t.mqds = update s.mqds mqd none) (hnext : t.nextMqd = s.nextMqd)
    (hobjs : t.objects = s.objects.modify e.queue fun o => { o with refs := o.refs - 1 })
    (hnames : ∀ name p, t.queues name = some p → s.queues name = some p ∧ (o.refs = 1 → p ≠ e.queue)) : t.Tables := by
  have hsub : ∀ m e', t.mqds m = some e' → s.mqds m = some e' := by
    intro m e' hm
    rw [hmqds] at hm
    by_cases hmm : m = mqd
    · rw [hmm, update_self] at hm
      cases hm
    · rwa [update_of_ne hmm] at hm
  have hget : ∀ p o', t.objects[p]? = some o' → ∃ o₀ : MqObject, s.objects[p]? = some o₀ ∧ o'.inner = o₀.inner ∧
      o'.refs = if p = e.queue then o₀.refs - 1 else o₀.refs := by
    intro p o' hp
    rw [hobjs, getElem?_modify] at hp
    obtain ⟨o₀, ho₀, rfl⟩ := map_eq_some_iff.mp hp
    refine ⟨o₀, ho₀, ?_⟩
    by_cases hpq : e.queue = p
    · simp [hpq]
    · simp [hpq, Ne.symm hpq]
  refine ⟨?_, ?_, ?_, ?_, ?_⟩
  · intro p o' hp
    obtain ⟨o₀, ho₀, -, hrefs⟩ := hget p o' hp
    obtain ⟨l, ⟨hnodup, hmem⟩, hlen⟩ := h.descriptors p o₀ ho₀
    by_cases hpq : p = e.queue
    · have hin : mqd ∈ l := (hmem mqd).mpr (by rw [he, hpq]; rfl)
      refine ⟨l.erase mqd, ⟨hnodup.erase mqd, ?_⟩, ?_⟩
      · intro m
        rw [hnodup.mem_erase_iff, hmem, hmqds]
        by_cases hm : m = mqd
        · simp [hm]
        · simp [hm]
      · rw [length_erase_of_mem hin, hlen, hrefs, if_pos hpq]
    refine ⟨l, ⟨hnodup, ?_⟩, by rw [hlen, hrefs, if_neg hpq]⟩
    intro m
    rw [hmem, hmqds]
    by_cases hm : m = mqd
    · subst hm
      simp [he, Ne.symm hpq]
    · simp [hm]
  · intro m e' hm
    rw [hobjs, length_modify]
    exact h.inRange m e' (hsub m e' hm)
  · intro m e' hm
    rw [hnext]
    exact h.below m e' (hsub m e' hm)
  · intro name p hp
    obtain ⟨hs, hlast⟩ := hnames name p hp
    obtain ⟨o₀, ho₀, hname, hrefs, hun⟩ := h.named name p hs
    by_cases hpq : e.queue = p
    · subst hpq
      rw [ho] at ho₀
      cases ho₀
      refine ⟨{ o with refs := o.refs - 1 }, by rw [hobjs, getElem?_modify_eq, ho]; rfl, hname, ?_, hun⟩
      intro hzero
      change o.refs - 1 = 0 at hzero
      omega
    · exact ⟨o₀, by rw [hobjs, getElem?_modify_ne _ _ hpq, ho₀], hname, hrefs, hun⟩
  · intro o' hmem
    obtain ⟨p, hp⟩ := getElem?_of_mem hmem
    obtain ⟨o₀, ho₀, hinner, -⟩ := hget p o' hp
    rw [hinner]
    exact h.reserved o₀ (mem_of_getElem? ho₀)

end

end State

/-! ### The balance -/

def MqObject.share (pid : Nat) (o : MqObject) : Nat :=
  if o.inner.creatorPid = pid ∧ o.refs ≠ 0 then o.inner.cost else 0

/-- What a call has charged for a message that is not in the queue yet, or not refunded yet for one it took. -/
def Call.pending (pid : Nat) : Call → Nat
  | .send c => match c.point with
    | .insert creator bytes => if pid = creator then bytes.toNat else 0
    | _ => 0
  | .recv c => match c.point with
    | .refund creator bytes _ _ => if pid = creator then bytes.toNat else 0
    | _ => 0

namespace State
variable {s t : State}

def held (s : State) (pid : Nat) : Nat := (s.objects.map (MqObject.share pid)).sum

def pending (s : State) (pid : Nat) : Nat := (s.calls.map (Call.pending pid)).sum

/-- A send between its check and its end: the descriptor is open on a queue of the process that is charged. -/
def Sending (s : State) (c : SendCall) (creator : Nat) (bytes : UInt64) : Prop :=
  (∃ e inner, s.entry c.mqd = some (e, inner) ∧ inner.creatorPid = creator) ∧ bytes.toNat = 48 + c.data.length

def Fits (s : State) : Call → Prop
  | .send c => c.data.length + 48 < 2 ^ 64 ∧
    ∀ creator bytes, c.point = .charge creator bytes ∨ c.point = .insert creator bytes → s.Sending c creator bytes
  | .recv _ => True

/-- The invariant while calls are between their steps. -/
structure Balance (s : State) : Prop where
  tables : s.Tables
  fits : ∀ c ∈ s.calls, s.Fits c
  bytes : ∀ pid, s.level pid = s.held pid + s.pending pid

variable {c : SendCall} {i : Nat} {mqd : UInt64}

theorem owed_eq_held (h : s.Tables) (pid : Nat) : s.owed pid = s.held pid := by
  have hheld : s.held pid = (s.objects.zipIdx.map fun x => x.1.share pid).sum := by
    conv_lhs => rw [held, ← zipIdx_map_fst 0 s.objects, List.map_map]
    rfl
  rw [hheld]
  refine congrArg List.sum (map_congr_left ?_)
  rintro ⟨o, q⟩ hx
  have hiff := h.exists_iff (mem_zipIdx_iff_getElem?.mp hx)
  simp only [share, hiff]

theorem pending_idle (h : s.idle) (pid : Nat) : s.pending pid = 0 := by
  refine Tally.sum_eq_zero _ fun c hc => ?_
  have hdone := List.all_eq_true.mp h c hc
  cases c with
  | send c | recv c => cases hp : c.point <;> simp_all [Call.pending, Call.inProgress]

theorem fits_idle (h : s.idle) (hfits : ∀ c ∈ s.calls, s.Fits c) (t : State) : ∀ c ∈ s.calls, t.Fits c := by
  intro c hc
  have hdone := List.all_eq_true.mp h c hc
  cases c with
  | send c =>
    refine ⟨(hfits _ hc).1, ?_⟩
    rintro creator bytes (hp | hp) <;> simp [Call.inProgress, hp] at hdone
  | recv c => trivial

theorem Balance.ofIdle (h : s.Balance) (hidle : s.idle) (htables : t.Tables)
    (hcalls : t.calls = s.calls) (hbytes : ∀ pid, t.level pid + s.held pid = s.level pid + t.held pid) : t.Balance := by
  refine ⟨htables, hcalls ▸ fits_idle hidle h.fits t, fun pid => ?_⟩
  have hs := h.bytes pid
  have ht := hbytes pid
  rw [pending, hcalls, ← pending]
  omega

end State

end Moxide.Mq
