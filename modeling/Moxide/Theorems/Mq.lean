import Moxide.Lib.Keyed
import Moxide.Lib.Reach
import Moxide.Lib.Word
import Moxide.Mq

/-! A message queue serves the highest priority first and, within it, in the order of arrival. -/

namespace Moxide.Mq
open Lib List Option

theorem PriMsg.cmp_eq_lt_iff {a b : PriMsg} : a.cmp b = .lt ↔
    a.prio.toNat < b.prio.toNat ∨ a.prio.toNat = b.prio.toNat ∧ b.seq.toNat < a.seq.toNat := by
  have hprio : ∀ x y : UInt32, compare x y = compare x.toNat y.toNat := by
    intro x y
    simp only [compare, compareOfLessAndEq, UInt32.lt_iff_toNat_lt, ← UInt32.toNat_inj]
  have hseq : ∀ x y : UInt64, compare x y = compare x.toNat y.toNat := by
    intro x y
    simp only [compare, compareOfLessAndEq, UInt64.lt_iff_toNat_lt, ← UInt64.toNat_inj]
  rw [PriMsg.cmp, hprio, hseq, Ordering.swap_eq_lt, Ordering.then_eq_gt, Nat.compare_eq_gt, Nat.compare_eq_eq,
    Nat.compare_eq_gt, eq_comm]

theorem greatest_spec (ms : List PriMsg) : ∀ m, greatest m ms ∈ m :: ms ∧ ∀ x ∈ m :: ms, (greatest m ms).cmp x ≠ .lt := by
  induction ms with
  | nil =>
    intro m
    refine ⟨mem_cons_self, ?_⟩
    intro x hx hlt
    obtain rfl := mem_singleton.mp hx
    have := PriMsg.cmp_eq_lt_iff.mp hlt
    rw [greatest] at this
    omega
  | cons y ms ih =>
    intro m
    rw [greatest]
    by_cases hlt : m.cmp y = .lt
    · rw [if_pos hlt]
      obtain ⟨hmem, hmax⟩ := ih y
      refine ⟨mem_cons_of_mem _ hmem, ?_⟩
      intro x hx
      rcases mem_cons.mp hx with rfl | hx
      · -- `x` is below `y`, which is not above the greatest
        intro hx
        have hy := hmax y mem_cons_self
        rw [Ne, PriMsg.cmp_eq_lt_iff] at hy
        have h1 := PriMsg.cmp_eq_lt_iff.mp hlt
        have h2 := PriMsg.cmp_eq_lt_iff.mp hx
        omega
      · exact hmax x hx
    · rw [if_neg hlt]
      obtain ⟨hmem, hmax⟩ := ih m
      refine ⟨?_, ?_⟩
      · rcases mem_cons.mp hmem with h | h
        · rw [h]
          exact mem_cons_self
        · exact mem_cons_of_mem _ (mem_cons_of_mem _ h)
      · intro x hx
        rcases mem_cons.mp hx with rfl | hx
        · exact hmax x mem_cons_self
        rcases mem_cons.mp hx with rfl | hx
        · intro hx
          have hm := hmax m mem_cons_self
          rw [Ne, PriMsg.cmp_eq_lt_iff] at hm
          rw [PriMsg.cmp_eq_lt_iff] at hlt
          have h2 := PriMsg.cmp_eq_lt_iff.mp hx
          omega
        · exact hmax x (mem_cons_of_mem _ hx)

theorem heapPop_spec {heap rest : List PriMsg} {msg : PriMsg} (h : heapPop heap = some (msg, rest)) :
    msg ∈ heap ∧ rest = heap.erase msg ∧ ∀ x ∈ heap, msg.cmp x ≠ .lt := by
  cases heap with
  | nil => cases h
  | cons m ms =>
    cases h
    obtain ⟨hmem, hmax⟩ := greatest_spec ms m
    exact ⟨hmem, rfl, hmax⟩

/-! ### One queue -/

/-- The heap of a queue against the messages that wait in it, in the order of their arrival. -/
structure MqInner.Holds (inner : MqInner) (l : List Queued) : Prop where
  heap : inner.heap.Perm (l.map Queued.msg)
  stamped : l.Pairwise fun a b => a.msg.seq.toNat < b.msg.seq.toNat
  below : ∀ m ∈ l, m.msg.seq.toNat < inner.seq.toNat
  counted : inner.attr.mqCurmsgs = Int64.ofNat l.length
  bounded : (l.length : Int) ≤ inner.attr.mqMaxmsg.toInt

namespace MqInner.Holds
variable {inner : MqInner} {l : List Queued} {m : Queued}

section
variable (h : inner.Holds l)
include h

theorem length_heap : inner.heap.length = l.length := by
  rw [h.heap.length_eq, length_map]

theorem curmsgs_toInt : inner.attr.mqCurmsgs.toInt = l.length := by
  have hle := h.bounded
  have hlt := inner.attr.mqMaxmsg.toInt_lt
  rw [h.counted]
  exact Int64.toInt_ofNat_of_lt (by omega)

theorem lt_of_not_full (hfull : inner.full = false) : (l.length : Int) < inner.attr.mqMaxmsg.toInt := by
  have hle := h.bounded
  have hlt := inner.attr.mqMaxmsg.toInt_lt
  unfold MqInner.full at hfull
  rw [h.length_heap, decide_eq_false_iff_not, Int64.le_iff_toInt_le, Int64.toInt_ofNat_of_lt (by omega)] at hfull
  omega

theorem push (hfull : inner.full = false) (hseq : inner.seq ≠ 0xFFFFFFFFFFFFFFFF) (i q : Nat)
    (prio : UInt32) (data : List UInt8) :
    (State.pushMsg inner ⟨prio, inner.seq, data⟩).Holds (l ++ [⟨i, q, ⟨prio, inner.seq, data⟩⟩]) := by
  have hlt := h.lt_of_not_full hfull
  refine ⟨?_, ?_, ?_, ?_, ?_⟩
  · rw [map_append]
    exact (h.heap.cons _).trans (perm_append_singleton ..).symm
  · refine pairwise_append.mpr ⟨h.stamped, pairwise_singleton .., ?_⟩
    intro a ha b hb
    obtain rfl := mem_singleton.mp hb
    exact h.below a ha
  · intro m hm
    change m.msg.seq.toNat < (inner.seq + 1).toNat
    rw [Word.toNat_add_one hseq]
    rcases mem_append.mp hm with hm | hm
    · exact (h.below m hm).trans (Nat.lt_succ_self _)
    · obtain rfl := mem_singleton.mp hm
      exact Nat.lt_succ_self _
  · change inner.attr.mqCurmsgs + 1 = _
    rw [h.counted, length_append, Int64.ofNat_add]
    rfl
  · rw [length_append]
    change (((l.length + 1 : Nat)) : Int) ≤ inner.attr.mqMaxmsg.toInt
    omega

end

theorem perm_cons_filter (hl : (l.map Queued.call).Nodup) (hm : m ∈ l) : l.Perm (m :: l.filter (·.call ≠ m.call)) := by
  rw [← Keyed.erase_eq_filter hl hm]
  exact perm_cons_erase hm

theorem removed (h : inner.Holds l) (hl : (l.map Queued.call).Nodup) (hm : m ∈ l) :
    (State.popMsg inner (inner.heap.erase m.msg)).Holds (l.filter (·.call ≠ m.call)) := by
  have hperm := perm_cons_filter hl hm
  have hlen : l.length = (l.filter (·.call ≠ m.call)).length + 1 := hperm.length_eq
  refine ⟨?_, h.stamped.sublist filter_sublist, fun x hx => h.below x (mem_of_mem_filter hx), ?_, ?_⟩
  · have herase := (h.heap.trans (hperm.map Queued.msg)).erase m.msg
    rwa [map_cons, erase_cons_head] at herase
  · change inner.attr.mqCurmsgs - 1 = _
    rw [h.counted, hlen, Int64.ofNat_add]
    exact Int64.add_sub_cancel ..
  · have hle := h.bounded
    change _ ≤ inner.attr.mqMaxmsg.toInt
    omega

theorem pop_eq (h : inner.Holds l) {msg : PriMsg} {rest : List PriMsg} (hpop : heapPop inner.heap = some (msg, rest)) :
    ∃ m, PrioQueue.best (·.msg.prio.toNat) l = some m ∧ m.msg = msg := by
  obtain ⟨hmem, -, hmax⟩ := heapPop_spec hpop
  obtain ⟨m, hm, rfl⟩ := List.mem_map.mp (h.heap.mem_iff.mp hmem)
  have hnot : ∀ x ∈ l, ¬ (m.msg.prio.toNat < x.msg.prio.toNat ∨
      m.msg.prio.toNat = x.msg.prio.toNat ∧ x.msg.seq.toNat < m.msg.seq.toNat) := by
    intro x hx hlt
    exact hmax x.msg (h.heap.mem_iff.mpr (List.mem_map_of_mem hx)) (PriMsg.cmp_eq_lt_iff.mpr hlt)
  refine ⟨m, PrioQueue.best_eq_some h.stamped hm ?_ ?_, rfl⟩
  · intro x hx
    have := hnot x hx
    omega
  · intro x hx heq
    have := hnot x hx
    omega

end MqInner.Holds

def State.senders (s : State) : List Nat := s.queued.map Queued.call ++ s.delivered.map (·.1.call)

def State.takenBy (s : State) (j : Nat) : List Queued := (s.delivered.filter (·.2 = j)).map Prod.fst

/-- What a receive has taken, against its point: one message from the moment it has left the heap. -/
def RecvPoint.Taken (l : List Queued) : RecvPoint → Prop
  | .pop | .failed _ => l = []
  | .refund _ _ data prio | .received data prio => ∃ m, l = [m] ∧ m.msg.data = data ∧ m.msg.prio = prio

structure State.Inv (s : State) : Prop where
  holds : ∀ q (o : MqObject), s.objects[q]? = some o → o.inner.Holds (s.queuedOn q)
  inRange : ∀ m ∈ s.queued, m.queue < s.objects.length
  nodup : s.senders.Nodup
  sent : ∀ i c, s.calls[i]? = some (.send c) → c.point = .done 0 → i ∈ s.senders
  content : ∀ m, (m ∈ s.queued ∨ m ∈ s.delivered.map Prod.fst) → ∃ c, s.calls[m.call]? = some (.send c) ∧
    c.point = .done 0 ∧ c.data = m.msg.data ∧ c.prio = m.msg.prio
  taken : ∀ j (c : RecvCall), s.calls[j]? = some (.recv c) → c.point.Taken (s.takenBy j)
  taker : ∀ e ∈ s.delivered, ∃ c, s.calls[e.2]? = some (.recv c)

namespace State
variable {s t : State}

theorem inv_new : State.new.Inv := by
  refine ⟨?_, ?_, nodup_nil, ?_, ?_, ?_, ?_⟩
  · intro q o h
    simp [State.new] at h
  · intro m h
    cases h
  · intro i c h
    simp [State.new] at h
  · rintro m (h | h) <;> cases h
  · intro j c h
    simp [State.new] at h
  · intro e h
    cases h

theorem Inv.mem_senders (h : s.Inv) {i : Nat} (hi : i ∈ s.senders) :
    ∃ c, s.calls[i]? = some (.send c) ∧ c.point = .done 0 := by
  rcases mem_append.mp hi with hi | hi
  · obtain ⟨m, hm, rfl⟩ := List.mem_map.mp hi
    obtain ⟨c, hc, hp, -⟩ := h.content m (.inl hm)
    exact ⟨c, hc, hp⟩
  · obtain ⟨e, he, rfl⟩ := List.mem_map.mp hi
    obtain ⟨c, hc, hp, -⟩ := h.content e.1 (.inr (List.mem_map_of_mem he))
    exact ⟨c, hc, hp⟩

/-! ### Steps that touch no message -/

end State

def MqInner.Fresh (inner : MqInner) : Prop :=
  inner.heap = [] ∧ inner.attr.mqCurmsgs = 0 ∧ 0 ≤ inner.attr.mqMaxmsg.toInt

def MqInner.Same (a b : MqInner) : Prop := a.heap = b.heap ∧ a.seq = b.seq ∧ a.attr = b.attr

theorem MqInner.Holds.same {a b : MqInner} {l : List Queued} (h : b.Holds l) (hab : a.Same b) : a.Holds l := by
  obtain ⟨hheap, hseq, hattr⟩ := hab
  exact ⟨hheap ▸ h.heap, h.stamped, hseq ▸ h.below, hattr ▸ h.counted, hattr ▸ h.bounded⟩

theorem MqInner.Fresh.holds {inner : MqInner} (h : inner.Fresh) : inner.Holds [] := by
  obtain ⟨hheap, hcount, hmax⟩ := h
  exact ⟨hheap ▸ List.Perm.nil, List.Pairwise.nil, by simp, hcount, hmax⟩

structure State.Quiet (s t : State) : Prop where
  queued : t.queued = s.queued
  delivered : t.delivered = s.delivered
  calls : t.calls = s.calls
  objects : ∀ q (o : MqObject), t.objects[q]? = some o → (∃ o', s.objects[q]? = some o' ∧ o.inner.Same o'.inner) ∨
    (s.objects.length ≤ q ∧ o.inner.Fresh)
  grows : s.objects.length ≤ t.objects.length

namespace State
variable {s t u : State} {q : Nat} {d : RecvCall} {e : MqdEntry} {o : MqObject} {soft : UInt64}

variable {i : Nat} {c : SendCall}

theorem Quiet.of_eq (hq : t.queued = s.queued) (hd : t.delivered = s.delivered) (hc : t.calls = s.calls)
    (ho : t.objects = s.objects) : s.Quiet t := by
  refine ⟨hq, hd, hc, ?_, ho ▸ le_refl _⟩
  intro q o h
  exact .inl ⟨o, ho ▸ h, rfl, rfl, rfl⟩

theorem Quiet.modify {f : MqObject → MqObject} (hf : ∀ o, (f o).inner.Same o.inner) (hq : t.queued = s.queued)
    (hd : t.delivered = s.delivered) (hc : t.calls = s.calls) (ho : t.objects = s.objects.modify q f) : s.Quiet t := by
  refine ⟨hq, hd, hc, ?_, by rw [ho, length_modify]⟩
  intro p o h
  rw [ho, getElem?_modify] at h
  obtain ⟨o', ho', rfl⟩ := map_eq_some_iff.mp h
  refine .inl ⟨o', ho', ?_⟩
  split
  · exact hf o'
  · exact ⟨rfl, rfl, rfl⟩

theorem Inv.quiet (h : s.Inv) (hst : s.Quiet t) : t.Inv := by
  have hon : ∀ q, t.queuedOn q = s.queuedOn q := fun q => by rw [queuedOn, queuedOn, hst.queued]
  have hsenders : t.senders = s.senders := by rw [senders, senders, hst.queued, hst.delivered]
  have htaken : ∀ j, t.takenBy j = s.takenBy j := fun j => by rw [takenBy, takenBy, hst.delivered]
  refine ⟨?_, ?_, hsenders ▸ h.nodup, ?_, ?_, ?_, ?_⟩
  · intro q o ho
    rw [hon]
    rcases hst.objects q o ho with ⟨o', ho', hsame⟩ | ⟨hq, hfresh⟩
    · exact (h.holds q o' ho').same hsame
    have hnil : s.queuedOn q = [] := by
      rw [queuedOn, filter_eq_nil_iff]
      intro m hm heq
      have := h.inRange m hm
      have := of_decide_eq_true heq
      omega
    rw [hnil]
    exact hfresh.holds
  · intro m hm
    rw [hst.queued] at hm
    exact (h.inRange m hm).trans_le hst.grows
  · intro i c hi hp
    rw [hst.calls] at hi
    exact hsenders ▸ h.sent i c hi hp
  · intro m hm
    rw [hst.queued, hst.delivered] at hm
    rw [hst.calls]
    exact h.content m hm
  · intro j c hj
    rw [hst.calls] at hj
    exact htaken j ▸ h.taken j c hj
  · intro e he
    rw [hst.delivered] at he
    rw [hst.calls]
    exact h.taker e he

theorem quiet_charge (s : State) (soft : UInt64) (pid : Nat) (bytes : UInt64) :
    s.Quiet (s.mqBytesCharge soft pid bytes).1 := by
  unfold mqBytesCharge
  dsimp only
  split <;> exact .of_eq rfl rfl rfl rfl

theorem quiet_discharge (s : State) (pid : Nat) (bytes : UInt64) : s.Quiet (s.mqBytesDischarge pid bytes) := by
  unfold mqBytesDischarge
  split <;> exact .of_eq rfl rfl rfl rfl

theorem charge_rc (s : State) (soft : UInt64) (pid : Nat) (bytes : UInt64) :
    (s.mqBytesCharge soft pid bytes).2 = -12 ∨ (s.mqBytesCharge soft pid bytes).2 = 0 := by
  unfold mqBytesCharge
  dsimp only
  split
  · exact .inl rfl
  · exact .inr rfl

theorem Quiet.trans (h : s.Quiet t) (h' : t.Quiet u) : s.Quiet u := by
  refine ⟨h'.queued.trans h.queued, h'.delivered.trans h.delivered, h'.calls.trans h.calls, ?_, h.grows.trans h'.grows⟩
  intro q o ho
  rcases h'.objects q o ho with ⟨o', ho', h1, h2, h3⟩ | ⟨hq, hfresh⟩
  · rcases h.objects q o' ho' with ⟨o'', ho'', h1', h2', h3'⟩ | ⟨hq, hheap, hcount, hmax⟩
    · exact .inl ⟨o'', ho'', h1.trans h1', h2.trans h2', h3.trans h3'⟩
    · exact .inr ⟨hq, h1.trans hheap, h3 ▸ hcount, h3 ▸ hmax⟩
  · exact .inr ⟨h.grows.trans hq, hfresh⟩

def createsClean (s : State) (name : String) (oflag : UInt32) (attr : Option MqAttr) : Bool :=
  (s.queues name).isSome || oflag &&& O_CREAT = 0 || attr.all (·.mqCurmsgs = 0)

theorem quiet_mqOpen (name : String) (oflag : UInt32) (attr : Option MqAttr) (pid : Nat) (soft : UInt64)
    (hclean : s.createsClean name oflag attr) : s.Quiet (s.mqOpen name oflag attr pid soft).1 := by
  unfold mqOpen
  split
  · exact .of_eq rfl rfl rfl rfl
  split
  · split
    · exact .of_eq rfl rfl rfl rfl
    · exact Quiet.modify (f := fun o => { o with refs := o.refs + 1 }) (fun o => ⟨rfl, rfl, rfl⟩) rfl rfl rfl rfl
  rename_i hnone
  split
  · exact .of_eq rfl rfl rfl rfl
  rename_i hcreat
  dsimp only
  split
  · exact .of_eq rfl rfl rfl rfl
  rename_i hattr
  split
  · exact quiet_charge ..
  refine (quiet_charge s soft pid _).trans ⟨rfl, rfl, rfl, ?_, ?_⟩
  · intro q o ho
    change (_ ++ [_])[q]? = some o at ho
    rcases lt_or_ge q (s.mqBytesCharge soft pid _).1.objects.length with hq | hq
    · rw [getElem?_append_left hq] at ho
      exact .inl ⟨o, ho, rfl, rfl, rfl⟩
    rw [getElem?_append_right hq] at ho
    obtain rfl := mem_singleton.mp (mem_of_getElem? ho)
    refine .inr ⟨hq, rfl, ?_, ?_⟩
    · simp only [createsClean, hnone, hcreat] at hclean
      cases attr with
      | none => rfl
      | some a => simpa using hclean
    · have hpos := fun h => hattr (.inl h)
      rw [Int64.le_iff_toInt_le] at hpos
      exact Int.le_of_lt (Int.not_le.mp hpos)
  · change _ ≤ (_ ++ [_]).length
    rw [length_append]
    exact Nat.le_add_right _ _

theorem quiet_mqClose (s : State) (mqd : UInt64) : s.Quiet (s.mqClose mqd).1 := by
  unfold mqClose
  split
  · exact .of_eq rfl rfl rfl rfl
  rename_i e he
  dsimp only
  split
  · exact .of_eq rfl rfl rfl rfl
  have hrefs : s.Quiet { s with
      mqds := Function.update s.mqds mqd none
      objects := s.objects.modify e.queue fun o => { o with refs := o.refs - 1 } } :=
    Quiet.modify (f := fun o => { o with refs := o.refs - 1 }) (fun o => ⟨rfl, rfl, rfl⟩) rfl rfl rfl rfl
  split
  · split
    · exact (hrefs.trans (quiet_discharge ..)).trans (.of_eq rfl rfl rfl rfl)
    · exact hrefs.trans (quiet_discharge ..)
  · exact hrefs

theorem quiet_mqUnlink (s : State) (name : String) : s.Quiet (s.mqUnlink name).1 := by
  unfold mqUnlink
  split
  · exact .of_eq rfl rfl rfl rfl
  · exact Quiet.modify (f := fun o => { o with inner := { o.inner with unlinked := true } })
      (fun o => ⟨rfl, rfl, rfl⟩) rfl rfl rfl rfl

theorem quiet_mqNotify (s : State) (mqd : UInt64) (signo pid : UInt32) : s.Quiet (s.mqNotify mqd signo pid).1 := by
  unfold mqNotify
  split
  · exact .of_eq rfl rfl rfl rfl
  · refine Quiet.modify (f := fun o => { o with inner := _ }) (fun o => ?_) rfl rfl rfl rfl
    split <;> exact ⟨rfl, rfl, rfl⟩

/-! ### Calls -/

section
variable (h : s.Inv)
include h

theorem Inv.push {c : Call} (hsend : ∀ d, c = .send d → d.point ≠ .done 0) (hrecv : ∀ d, c = .recv d → d.point.Taken []) :
    { s with calls := s.calls ++ [c] }.Inv := by
  have hold : ∀ (i : Nat) (d : Call), s.calls[i]? = some d → (s.calls ++ [c])[i]? = some d := by
    intro i d hd
    rw [getElem?_append_left (List.getElem?_eq_some_iff.mp hd).1, hd]
  have hnew : ∀ (i : Nat) (d : Call), (s.calls ++ [c])[i]? = some d → s.calls[i]? = some d ∨ i = s.calls.length ∧ d = c := by
    intro i d hd
    rcases lt_or_ge i s.calls.length with hi | hi
    · rw [getElem?_append_left hi] at hd
      exact .inl hd
    have hlt := (List.getElem?_eq_some_iff.mp hd).1
    rw [length_append, length_singleton] at hlt
    rw [getElem?_append_right hi] at hd
    exact .inr ⟨by omega, mem_singleton.mp (mem_of_getElem? hd)⟩
  refine ⟨h.holds, h.inRange, h.nodup, ?_, ?_, ?_, ?_⟩
  · intro i d hi hp
    rcases hnew i _ hi with hi | ⟨-, hd⟩
    · exact h.sent i d hi hp
    · exact absurd hp (hsend d hd.symm)
  · intro m hm
    obtain ⟨d, hd, hrest⟩ := h.content m hm
    exact ⟨d, hold _ _ hd, hrest⟩
  · intro j d hj
    rcases hnew j _ hj with hj | ⟨rfl, hd⟩
    · exact h.taken j d hj
    have hnil : s.takenBy s.calls.length = [] := by
      rw [takenBy, filter_eq_nil_iff.mpr, map_nil]
      intro e he heq
      obtain ⟨d', hd'⟩ := h.taker e he
      have hlt := (List.getElem?_eq_some_iff.mp hd').1
      have := of_decide_eq_true heq
      omega
    change d.point.Taken (s.takenBy s.calls.length)
    rw [hnil]
    exact hrecv d hd.symm
  · intro e he
    obtain ⟨d, hd⟩ := h.taker e he
    exact ⟨d, hold _ _ hd⟩

theorem Inv.ofCall {c d : Call} (hi : s.calls[i]? = some c) (hcalls : t.calls = s.calls.set i d)
    (hholds : ∀ q (o : MqObject), t.objects[q]? = some o → o.inner.Holds (t.queuedOn q))
    (hrange : ∀ m ∈ t.queued, m.queue < t.objects.length) (hnodup : t.senders.Nodup)
    (hsenders : ∀ j ∈ s.senders, j ∈ t.senders) (hsent : ∀ x, d = .send x → x.point = .done 0 → i ∈ t.senders)
    (hcontent : ∀ m, (m ∈ t.queued ∨ m ∈ t.delivered.map Prod.fst) →
      (m.call ≠ i ∧ (m ∈ s.queued ∨ m ∈ s.delivered.map Prod.fst)) ∨
      (m.call = i ∧ ∃ x, d = .send x ∧ x.point = .done 0 ∧ x.data = m.msg.data ∧ x.prio = m.msg.prio))
    (htaken : ∀ j, j ≠ i → t.takenBy j = s.takenBy j) (hown : ∀ x, d = .recv x → x.point.Taken (t.takenBy i))
    (htaker : ∀ e ∈ t.delivered, (e.2 ≠ i ∧ e ∈ s.delivered) ∨ (e.2 = i ∧ ∃ x, d = .recv x)) : t.Inv := by
  have hlt := (List.getElem?_eq_some_iff.mp hi).1
  have hself : t.calls[i]? = some d := by rw [hcalls, getElem?_set_self hlt]
  have hother : ∀ j, j ≠ i → t.calls[j]? = s.calls[j]? := by
    intro j hj
    rw [hcalls, getElem?_set_ne hj.symm]
  refine ⟨hholds, hrange, hnodup, ?_, ?_, ?_, ?_⟩
  · intro j x hj hp
    by_cases hji : j = i
    · subst hji
      rw [hself] at hj
      exact hsent x (some.inj hj) hp
    · rw [hother j hji] at hj
      exact hsenders j (h.sent j x hj hp)
  · intro m hm
    rcases hcontent m hm with ⟨hne, hold⟩ | ⟨rfl, x, rfl, hrest⟩
    · rw [hother _ hne]
      exact h.content m hold
    · exact ⟨x, hself, hrest⟩
  · intro j x hj
    by_cases hji : j = i
    · subst hji
      rw [hself] at hj
      exact hown x (some.inj hj)
    · rw [hother j hji] at hj
      rw [htaken j hji]
      exact h.taken j x hj
  · intro e he
    rcases htaker e he with ⟨hne, hold⟩ | ⟨heq, x, rfl⟩
    · rw [hother _ hne]
      exact h.taker e hold
    · exact ⟨x, heq ▸ hself⟩

theorem Inv.ne_of_sending (hi : s.calls[i]? = some (.send c)) (hc : c.point ≠ .done 0) {m : Queued}
    (hm : m ∈ s.queued ∨ m ∈ s.delivered.map Prod.fst) : m.call ≠ i := by
  rintro rfl
  obtain ⟨x, hx, hp, -⟩ := h.content m hm
  rw [hi] at hx
  cases hx
  exact hc hp

theorem Inv.ne_of_receiving {c : RecvCall} (hi : s.calls[i]? = some (.recv c)) {m : Queued}
    (hm : m ∈ s.queued ∨ m ∈ s.delivered.map Prod.fst) : m.call ≠ i := by
  rintro rfl
  obtain ⟨x, hx, -⟩ := h.content m hm
  rw [hi] at hx
  cases hx

theorem Inv.taker_ne (hi : s.calls[i]? = some (.send c)) {e : Queued × Nat} (he : e ∈ s.delivered) : e.2 ≠ i := by
  rintro rfl
  obtain ⟨x, hx⟩ := h.taker e he
  rw [hi] at hx
  cases hx

theorem Inv.setSend {d : SendCall} (hi : s.calls[i]? = some (.send c)) (hc : c.point ≠ .done 0) (hd : d.point ≠ .done 0) :
    (s.setCall i (.send d)).Inv := by
  refine h.ofCall hi rfl h.holds h.inRange h.nodup (fun _ hj => hj) ?_ ?_ (fun _ _ => rfl) ?_ ?_
  · rintro x ⟨⟩ hp
    exact absurd hp hd
  · intro m hm
    exact .inl ⟨h.ne_of_sending hi hc hm, hm⟩
  · rintro x ⟨⟩
  · intro e he
    exact .inl ⟨h.taker_ne hi he, he⟩

theorem Inv.setRecv {c : RecvCall} (hi : s.calls[i]? = some (.recv c)) (hd : d.point.Taken (s.takenBy i)) :
    (s.setCall i (.recv d)).Inv := by
  refine h.ofCall hi rfl h.holds h.inRange h.nodup (fun _ hj => hj) ?_ ?_ (fun _ _ => rfl) ?_ ?_
  · rintro x ⟨⟩
  · intro m hm
    exact .inl ⟨h.ne_of_receiving hi hm, hm⟩
  · rintro x ⟨⟩
    exact hd
  · intro e he
    by_cases hei : e.2 = i
    · exact .inr ⟨hei, d, rfl⟩
    · exact .inl ⟨hei, he⟩

end

theorem entry_some {mqd : UInt64} {inner : MqInner} (h : s.entry mqd = some (e, inner)) :
    s.mqds mqd = some e ∧ ∃ o, s.objects[e.queue]? = some o ∧ o.inner = inner := by
  obtain ⟨e', he, h⟩ := bind_eq_some_iff.mp h
  obtain ⟨o, ho, heq⟩ := map_eq_some_iff.mp h
  cases heq
  exact ⟨he, o, ho, rfl⟩

theorem getElem?_setInner {f : MqInner → MqInner} (ht : t.objects = (s.setInner q f).objects) {p : Nat}
    (h : t.objects[p]? = some o) : ∃ o', s.objects[p]? = some o' ∧
      (p = q ∧ o.inner = f o'.inner ∨ p ≠ q ∧ o.inner = o'.inner) := by
  rw [ht, setInner, getElem?_modify] at h
  obtain ⟨o', ho', rfl⟩ := map_eq_some_iff.mp h
  refine ⟨o', ho', ?_⟩
  by_cases hqp : q = p
  · rw [if_pos hqp]
    exact .inl ⟨hqp.symm, rfl⟩
  · rw [if_neg hqp]
    exact .inr ⟨Ne.symm hqp, rfl⟩

theorem queuedOn_append (l : List Queued) (m : Queued) (q : Nat) :
    (l ++ [m]).filter (·.queue = q) = l.filter (·.queue = q) ++ if m.queue = q then [m] else [] := by
  by_cases hq : m.queue = q <;> simp [hq]

theorem Inv.arrive (h : s.Inv) (hi : s.calls[i]? = some (.send c)) (hc : c.point ≠ .done 0) {inner : MqInner}
    (he : s.entry c.mqd = some (e, inner)) (hfull : inner.full = false) (hseq : inner.seq ≠ 0xFFFFFFFFFFFFFFFF)
    (signals : List (UInt32 × UInt32)) :
    (({ s with
        queued := s.queued ++ [Queued.mk i e.queue ⟨c.prio, inner.seq, c.data⟩]
        signals := signals }.setInner e.queue (pushMsg · ⟨c.prio, inner.seq, c.data⟩)).setCall i
      (.send { c with point := .done 0 })).Inv := by
  obtain ⟨-, o, ho, rfl⟩ := entry_some he
  have hni : i ∉ s.senders := by
    intro hmem
    obtain ⟨x, hx, hp⟩ := h.mem_senders hmem
    rw [hi] at hx
    cases hx
    exact hc hp
  refine h.ofCall hi rfl ?_ ?_ ?_ ?_ ?_ ?_ (fun _ _ => rfl) ?_ ?_
  · intro q o' ho'
    obtain ⟨o'', ho'', hcase⟩ := getElem?_setInner (s := s) (q := e.queue)
      (f := (pushMsg · ⟨c.prio, o.inner.seq, c.data⟩)) rfl ho'
    change o'.inner.Holds ((s.queued ++ [_]).filter (·.queue = q))
    rw [queuedOn_append]
    rcases hcase with ⟨rfl, hinner⟩ | ⟨hne, hinner⟩
    · rw [ho] at ho''
      cases ho''
      rw [hinner, if_pos rfl]
      exact (h.holds _ o ho).push hfull hseq i e.queue c.prio c.data
    · rw [hinner, if_neg hne.symm, append_nil]
      exact h.holds q o'' ho''
  · intro m hm
    change m.queue < (s.objects.modify e.queue _).length
    rw [length_modify]
    rcases mem_append.mp hm with hm | hm
    · exact h.inRange m hm
    · obtain rfl := mem_singleton.mp hm
      exact (List.getElem?_eq_some_iff.mp ho).1
  · have hperm : (s.queued.map Queued.call ++ [i] ++ s.delivered.map (·.1.call)).Perm (i :: s.senders) := by
      rw [append_assoc]
      exact perm_middle
    change ((s.queued ++ [_]).map Queued.call ++ _).Nodup
    rw [map_append]
    exact hperm.nodup_iff.mpr (nodup_cons.mpr ⟨hni, h.nodup⟩)
  · intro j hj
    change j ∈ (s.queued ++ [_]).map Queued.call ++ _
    rw [map_append]
    rcases mem_append.mp hj with hj | hj
    · exact mem_append_left _ (mem_append_left _ hj)
    · exact mem_append_right _ hj
  · intro x _ _
    change i ∈ (s.queued ++ [_]).map Queued.call ++ _
    rw [map_append]
    exact mem_append_left _ (mem_append_right _ mem_cons_self)
  · intro m hm
    have hcase : (m ∈ s.queued ∨ m ∈ s.delivered.map Prod.fst) ∨ m = ⟨i, e.queue, c.prio, o.inner.seq, c.data⟩ := by
      rcases hm with hm | hm
      · rcases mem_append.mp hm with hm | hm
        · exact .inl (.inl hm)
        · exact .inr (mem_singleton.mp hm)
      · exact .inl (.inr hm)
    rcases hcase with hm | rfl
    · exact .inl ⟨h.ne_of_sending hi hc hm, hm⟩
    · exact .inr ⟨rfl, _, rfl, rfl, rfl, rfl⟩
  · rintro x ⟨⟩
  · intro e' he'
    exact .inl ⟨h.taker_ne hi he', he'⟩

theorem Inv.nodup_calls (h : s.Inv) : (s.queued.map Queued.call).Nodup := (nodup_append.mp h.nodup).1

theorem Inv.serve (h : s.Inv) {c : RecvCall} (hi : s.calls[i]? = some (.recv c)) (hc : c.point = .pop)
    (ho : s.objects[q]? = some o) {msg : PriMsg} {heap : List PriMsg} (hpop : heapPop o.inner.heap = some (msg, heap))
    (hd : ∀ m, m.msg = msg → d.point.Taken [m]) :
    (((s.setInner q (popMsg · heap)).serve q i).setCall i (.recv d)).Inv := by
  obtain ⟨m, hm, rfl⟩ := (h.holds q o ho).pop_eq hpop
  obtain ⟨-, rfl, -⟩ := heapPop_spec hpop
  have hon : m ∈ s.queuedOn q := PrioQueue.mem_of_best hm
  have hqueued : m ∈ s.queued := mem_of_mem_filter hon
  have hmq : m.queue = q := by simpa using (mem_filter.mp hon).2
  have hnext : (s.setInner q (popMsg · (o.inner.heap.erase m.msg))).next q = some m := hm
  have hserve : (s.setInner q (popMsg · (o.inner.heap.erase m.msg))).serve q i =
      { s.setInner q (popMsg · (o.inner.heap.erase m.msg)) with
        queued := s.queued.filter (·.call ≠ m.call)
        delivered := s.delivered ++ [(m, i)] } := by
    rw [State.serve, hnext]
    rfl
  rw [hserve]
  have hfilter : ∀ p, (s.queued.filter (·.call ≠ m.call)).filter (·.queue = p) =
      (s.queuedOn p).filter (·.call ≠ m.call) := fun p => filter_comm ..
  have hnone : s.takenBy i = [] := by simpa [hc, RecvPoint.Taken] using h.taken i c hi
  have hsenders : ((s.queued.filter (·.call ≠ m.call)).map Queued.call ++
      (s.delivered ++ [(m, i)]).map (·.1.call)).Perm s.senders := by
    have hperm := ((MqInner.Holds.perm_cons_filter h.nodup_calls hqueued).map Queued.call).append_right
      (s.delivered.map (·.1.call))
    refine List.Perm.trans ?_ hperm.symm
    rw [map_append, ← append_assoc]
    exact perm_append_singleton ..
  refine h.ofCall hi rfl ?_ ?_ (hsenders.nodup_iff.mpr h.nodup) (fun j hj => hsenders.mem_iff.mpr hj) ?_ ?_ ?_ ?_ ?_
  · intro p o' ho'
    obtain ⟨o'', ho'', hcase⟩ := getElem?_setInner (s := s) (q := q)
      (f := (popMsg · (o.inner.heap.erase m.msg))) rfl ho'
    change o'.inner.Holds ((s.queued.filter (·.call ≠ m.call)).filter (·.queue = p))
    rw [hfilter]
    rcases hcase with ⟨rfl, hinner⟩ | ⟨hne, hinner⟩
    · rw [ho] at ho''
      cases ho''
      rw [hinner]
      exact (h.holds p o ho).removed (h.nodup_calls.sublist (filter_sublist.map _)) hon
    -- the messages of another queue stay
    have hself : (s.queuedOn p).filter (·.call ≠ m.call) = s.queuedOn p := by
      rw [filter_eq_self]
      intro x hx
      rw [decide_eq_true_eq]
      intro heq
      obtain rfl := inj_on_of_nodup_map h.nodup_calls (mem_of_mem_filter hx) hqueued heq
      have hxp : x.queue = p := by simpa using (mem_filter.mp hx).2
      exact hne (hxp.symm.trans hmq)
    rw [hself, hinner]
    exact h.holds p o'' ho''
  · intro x hx
    change x.queue < (s.objects.modify q _).length
    rw [length_modify]
    exact h.inRange x (mem_of_mem_filter hx)
  · rintro x ⟨⟩
  · intro x hx
    have hold : x ∈ s.queued ∨ x ∈ s.delivered.map Prod.fst := by
      rcases hx with hx | hx
      · exact .inl (mem_of_mem_filter hx)
      change x ∈ (s.delivered ++ [(m, i)]).map Prod.fst at hx
      rw [map_append] at hx
      rcases mem_append.mp hx with hx | hx
      · exact .inr hx
      · obtain rfl := mem_singleton.mp hx
        exact .inl hqueued
    exact .inl ⟨h.ne_of_receiving hi hold, hold⟩
  · intro j hj
    change ((s.delivered ++ [(m, i)]).filter (·.2 = j)).map Prod.fst = _
    simp [takenBy, Ne.symm hj]
  · rintro x ⟨⟩
    change d.point.Taken (((s.delivered ++ [(m, i)]).filter (·.2 = i)).map Prod.fst)
    have htaken : ((s.delivered ++ [(m, i)]).filter (·.2 = i)).map Prod.fst = s.takenBy i ++ [m] := by
      simp [takenBy]
    rw [htaken, hnone]
    exact hd m rfl
  · intro e he
    by_cases hei : e.2 = i
    · exact .inr ⟨hei, d, rfl⟩
    rcases mem_append.mp he with he | he
    · exact .inl ⟨hei, he⟩
    · obtain rfl := mem_singleton.mp he
      exact absurd rfl hei

/-! ### Runs -/

/-- A queue is created with a counter of 0, and the sequence number of a queue does not wrap when a message arrives. -/
def safe (s : State) : Event → Bool
  | .opens name oflag attr _ _ => s.createsClean name oflag attr
  | .step i _ =>
    match s.calls[i]? with
    | some (.send ⟨mqd, _, _, .insert _ _⟩) => (s.entry mqd).all fun e => e.2.seq ≠ 0xFFFFFFFFFFFFFFFF
    | _ => true
  | .close _ | .unlink _ | .notify _ _ _ | .send _ _ _ | .receive _ _ => true

theorem Inv.sendCheck_ne (s : State) (c : SendCall) : s.sendCheck c ≠ .done 0 := by
  unfold sendCheck
  split
  · simp
  split
  · simp
  · split
    · split <;> simp
    · simp

theorem Inv.sendStep (h : s.Inv) (hi : s.calls[i]? = some (.send c))
    (hsafe : s.safe (.step i soft)) (hs : s.sendStep i c soft = some t) : t.Inv := by
  unfold State.sendStep at hs
  split at hs
  · rename_i hp
    cases hs
    exact h.setSend hi (by simp [hp]) (Inv.sendCheck_ne s c)
  · rename_i creator bytes hp
    obtain rfl := some.inj hs
    refine (h.quiet (quiet_charge s soft creator bytes)).setSend ((quiet_charge ..).calls ▸ hi) (by simp [hp]) ?_
    rcases charge_rc s soft creator bytes with hrc | hrc <;> simp [hrc]
  · rename_i creator bytes hp
    cases hs
    unfold sendInsert
    split
    · exact h.setSend hi (by simp [hp]) (by simp)
    rename_i e inner he
    split
    · refine (h.quiet (quiet_discharge s creator bytes)).setSend ((quiet_discharge ..).calls ▸ hi) (by simp [hp]) ?_
      split <;> simp
    rename_i hfull
    have hseq : inner.seq ≠ 0xFFFFFFFFFFFFFFFF := by
      obtain ⟨mqd, data, prio, point⟩ := c
      obtain rfl : point = _ := hp
      simpa [safe, hi, he] using hsafe
    exact h.arrive hi (by simp [hp]) he (by simpa using hfull) hseq _
  · cases hs

theorem Inv.recvStep (h : s.Inv) {c : RecvCall} (hi : s.calls[i]? = some (.recv c))
    (hs : s.recvStep i c = some t) : t.Inv := by
  have htaken := h.taken i c hi
  unfold State.recvStep at hs
  split at hs
  · rename_i hp
    cases hs
    have hnone : s.takenBy i = [] := by simpa [hp, RecvPoint.Taken] using htaken
    have hfail : ∀ err, (s.setCall i (.recv { c with point := .failed err })).Inv := fun err => h.setRecv hi hnone
    unfold recvPop
    split
    · exact hfail _
    rename_i e inner he
    obtain ⟨-, o, ho, rfl⟩ := entry_some he
    split
    · exact hfail _
    split
    · exact hfail _
    split
    · rename_i msg heap hpop
      refine h.serve hi hp ho hpop ?_
      rintro m rfl
      exact ⟨m, rfl, rfl, rfl⟩
    · split
      · exact hfail _
      · exact h
  · rename_i creator bytes data prio hp
    cases hs
    rw [hp] at htaken
    exact (h.quiet (quiet_discharge s creator bytes)).setRecv ((quiet_discharge ..).calls ▸ hi)
      (by rw [takenBy, (quiet_discharge ..).delivered]; exact htaken)
  · cases hs
  · cases hs

theorem Inv.step (h : s.Inv) {e : Event} (hsafe : s.safe e) (hs : s.step e = some t) : t.Inv := by
  cases e with
  | opens name oflag attr pid soft => cases hs; exact h.quiet (quiet_mqOpen name oflag attr pid soft hsafe)
  | close mqd => cases hs; exact h.quiet (quiet_mqClose s mqd)
  | unlink name => cases hs; exact h.quiet (quiet_mqUnlink s name)
  | notify mqd signo pid => cases hs; exact h.quiet (quiet_mqNotify s mqd signo pid)
  | send mqd data prio =>
    cases hs
    refine h.push ?_ (by rintro d ⟨⟩)
    rintro d ⟨⟩
    dsimp only [startSend]
    split <;> simp
  | receive mqd maxLen =>
    cases hs
    refine h.push (by rintro d ⟨⟩) ?_
    rintro d ⟨⟩
    rfl
  | step i soft =>
    simp only [State.step] at hs
    split at hs
    · rename_i c hi
      exact h.sendStep hi hsafe hs
    · rename_i c hi
      exact h.recvStep hi hs
    · cases hs

structure Exact (s : State) : Prop where
  /-- The heap of a queue has the messages that wait in it, `mq_curmsgs` is their number, and that is at most
      `mq_maxmsg`. -/
  counted : ∀ q (o : MqObject), s.objects[q]? = some o → o.inner.heap.Perm ((s.queuedOn q).map Queued.msg) ∧
    o.inner.attr.mqCurmsgs.toInt = o.inner.heap.length ∧ (o.inner.heap.length : Int) ≤ o.inner.attr.mqMaxmsg.toInt
  /-- A send that returned `Ok` has its message queued or delivered, and only once. -/
  sent : ∀ i (c : SendCall), s.calls[i]? = some (.send c) → c.point = .done 0 → s.senders.count i = 1
  /-- Every message queued or delivered is the one of such a send. -/
  content : ∀ m, (m ∈ s.queued ∨ m ∈ s.delivered.map Prod.fst) → ∃ c, s.calls[m.call]? = some (.send c) ∧
    c.point = .done 0 ∧ c.data = m.msg.data ∧ c.prio = m.msg.prio
  /-- A receive that returned a message has had one delivered, and returned that one. -/
  received : ∀ j (c : RecvCall) data prio, s.calls[j]? = some (.recv c) → c.point = .received data prio →
    ∃ m, s.takenBy j = [m] ∧ m.msg.data = data ∧ m.msg.prio = prio
  /-- A receive that failed, or is still at its loop, has had none. -/
  none : ∀ j (c : RecvCall), s.calls[j]? = some (.recv c) → (c.point = .pop ∨ ∃ err, c.point = .failed err) →
    s.takenBy j = []

def Serves (s t : State) : Prop := ∀ m j, (m, j) ∈ t.delivered → (m, j) ∈ s.delivered ∨ s.next m.queue = some m

theorem Inv.exact (h : s.Inv) : s.Exact := by
  refine ⟨?_, ?_, h.content, ?_, ?_⟩
  · intro q o ho
    have hq := h.holds q o ho
    rw [hq.curmsgs_toInt, hq.length_heap]
    exact ⟨hq.heap, rfl, hq.bounded⟩
  · intro i c hi hp
    exact count_eq_one_of_mem h.nodup (h.sent i c hi hp)
  · intro j c data prio hj hp
    have htaken := h.taken j c hj
    rwa [hp] at htaken
  · rintro j c hj (hp | ⟨err, hp⟩)
    · have htaken := h.taken j c hj
      rwa [hp] at htaken
    · have htaken := h.taken j c hj
      rwa [hp] at htaken

theorem Serves.of_eq (h : t.delivered = s.delivered) : s.Serves t := fun _ _ hm => .inl (h ▸ hm)

theorem serves_recvPop (s : State) (i : Nat) (c : RecvCall) : s.Serves (s.recvPop i c) := by
  unfold recvPop
  split
  · exact .of_eq rfl
  rename_i e inner he
  split
  · exact .of_eq rfl
  split
  · exact .of_eq rfl
  split
  · rename_i msg heap hpop
    intro m j hm
    change (m, j) ∈ ((s.setInner e.queue (popMsg · heap)).serve e.queue i).delivered at hm
    unfold State.serve at hm
    split at hm
    · exact .inl hm
    rename_i m' hnext
    rcases mem_append.mp hm with hm | hm
    · exact .inl hm
    obtain ⟨rfl, rfl⟩ := Prod.mk.inj (mem_singleton.mp hm)
    have hq : m.queue = e.queue := by
      simpa using (mem_filter.mp (PrioQueue.mem_of_best hnext)).2
    exact .inr (hq ▸ hnext)
  · split <;> exact .of_eq rfl

theorem serves_sendStep (hs : s.sendStep i c soft = some t) : s.Serves t := by
  unfold State.sendStep at hs
  split at hs <;> cases hs
  · exact .of_eq rfl
  · exact .of_eq (quiet_charge ..).delivered
  unfold sendInsert
  split
  · exact .of_eq rfl
  · split
    · exact .of_eq (quiet_discharge ..).delivered
    · exact .of_eq rfl

theorem serves_step {e : Event} (hsafe : s.safe e) (hs : s.step e = some t) : s.Serves t := by
  cases e with
  | opens name oflag attr pid soft => cases hs; exact .of_eq (quiet_mqOpen name oflag attr pid soft hsafe).delivered
  | close mqd => cases hs; exact .of_eq (quiet_mqClose s mqd).delivered
  | unlink name => cases hs; exact .of_eq (quiet_mqUnlink s name).delivered
  | notify mqd signo pid => cases hs; exact .of_eq (quiet_mqNotify s mqd signo pid).delivered
  | send mqd data prio => cases hs; exact .of_eq rfl
  | receive mqd maxLen => cases hs; exact .of_eq rfl
  | step i soft =>
    simp only [State.step] at hs
    split at hs
    · exact serves_sendStep hs
    · rename_i c hi
      unfold State.recvStep at hs
      split at hs <;> cases hs
      · exact serves_recvPop s i c
      · exact .of_eq (quiet_discharge ..).delivered
    · cases hs

/-- Where every step is safe, the queues hold exactly what was sent and not received, and serve it in order. -/
theorem queue_exact (s : State) (h : Reach (fun s e t => s.step e = some t) (fun s e => s.safe e = true) State.new s) :
    s.Exact ∧ ∀ e t, s.safe e = true → s.step e = some t → s.Serves t := by
  have hinv : s.Inv := h.invariant inv_new fun s e t hs hsafe hstep => hs.step hsafe hstep
  exact ⟨hinv.exact, fun e t hsafe hs => serves_step hsafe hs⟩

/-- Three messages sent, two of them of the highest priority, and one received: the first of these. -/
theorem queue_exact_three_messages : ∃ s, Reach.run State.step State.safe State.new
    [.opens "/q" 0o102 none 1 RLIM_INFINITY, .send 1 [7] 1, .send 1 [8] 5, .send 1 [9] 5,
      .step 0 RLIM_INFINITY, .step 0 RLIM_INFINITY, .step 0 RLIM_INFINITY, .step 1 RLIM_INFINITY, .step 1 RLIM_INFINITY,
      .step 1 RLIM_INFINITY, .step 2 RLIM_INFINITY, .step 2 RLIM_INFINITY, .step 2 RLIM_INFINITY,
      .receive 1 8192, .step 3 RLIM_INFINITY, .step 3 RLIM_INFINITY] = some s ∧
    s.calls[3]? = some (.recv ⟨1, 8192, .received [8] 5⟩) ∧ s.Exact := by
  exact Reach.exists_run_and (by decide +kernel) fun s hs hcall => ⟨hcall, (queue_exact s hs).1⟩

/-- A queue created with a counter of 5 counts 6 messages when it has one. -/
theorem curmsgs_wrong : ∃ s o, Reach.run State.step (fun _ _ => true) State.new
    [.opens "/q" 0o102 (some ⟨0, 10, 100, 5⟩) 1 RLIM_INFINITY, .send 1 [7] 1,
      .step 0 RLIM_INFINITY, .step 0 RLIM_INFINITY, .step 0 RLIM_INFINITY] = some s ∧
    s.objects[0]? = some o ∧ o.inner.heap.length = 1 ∧ o.inner.attr.mqCurmsgs = 6 := by
  have hrun : ((Reach.run State.step (fun _ _ => true) State.new
      [.opens "/q" 0o102 (some ⟨0, 10, 100, 5⟩) 1 RLIM_INFINITY, .send 1 [7] 1,
        .step 0 RLIM_INFINITY, .step 0 RLIM_INFINITY, .step 0 RLIM_INFINITY]).bind fun s => s.objects[0]?.map fun o =>
          (s, o)).map (fun p => (p.2.inner.heap.length, p.2.inner.attr.mqCurmsgs)) = some (1, 6) := by decide +kernel
  obtain ⟨⟨s, o⟩, hso, hcount⟩ := map_eq_some_iff.mp hrun
  obtain ⟨s', hs, ho⟩ := bind_eq_some_iff.mp hso
  obtain ⟨o', ho', heq⟩ := map_eq_some_iff.mp ho
  cases heq
  obtain ⟨hlen, hcur⟩ := Prod.mk.inj hcount
  exact ⟨s, o, hs, ho', hlen, hcur⟩

end State

end Moxide.Mq
