import Moxide.Theorems.Mq.Charges

/-! The account of RLIMIT_MSGQUEUE. The last `mq_close` never gives back the charges of a queue's messages. -/

namespace Moxide.Mq
open Function (update update_of_ne update_self)
open Lib List Option MqObject

namespace State
variable {s t : State} {pid q : Nat} {oflag : UInt32} {c : SendCall} {i : Nat} {mqd : UInt64}

/-! ### Steps of a call -/

variable {creator : Nat} {bytes soft : UInt64} {inner : MqInner} {name : String}

theorem Sending.same (h : s.Sending c creator bytes) (hst : s.SameTables t) : t.Sending c creator bytes := by
  obtain ⟨⟨e, inner, hentry, hcreator⟩, hbytes⟩ := h
  obtain ⟨he, o, ho, rfl⟩ := entry_some hentry
  obtain ⟨o', ho', hsk⟩ := skeleton_of_eq hst.skeletons.symm ho
  simp only [skeleton, Prod.mk.injEq] at hsk
  refine ⟨⟨e, o'.inner, ?_, hsk.2.2.2.1.trans hcreator⟩, hbytes⟩
  rw [entry, hst.mqds, he, bind_some, ho']
  rfl

theorem Balance.setCall {u : State} (h : s.Balance) {c d : Call} (hi : s.calls[i]? = some c)
    (hsu : s.SameTables u) (hcalls : u.calls = s.calls) (hfits : u.Fits d)
    (hbytes : ∀ pid, u.level pid + s.held pid + c.pending pid = s.level pid + u.held pid + d.pending pid) :
    (u.setCall i d).Balance := by
  have hst : s.SameTables (u.setCall i d) := { hsu with }
  refine ⟨h.tables.same hst, ?_, ?_⟩
  · intro x hx
    rw [State.setCall, hcalls] at hx
    rcases mem_or_eq_of_mem_set hx with hx | rfl
    · have hx := h.fits x hx
      cases x with
      | send x => exact ⟨hx.1, fun creator bytes hp => (hx.2 creator bytes hp).same hst⟩
      | recv x => trivial
    · exact hfits
  · intro pid
    have hpend := Tally.sum_set (Call.pending pid) (b := d) hi
    have hs := h.bytes pid
    have ht := hbytes pid
    have hnew : (u.setCall i d).pending pid = ((s.calls.set i d).map (Call.pending pid)).sum := by rw [← hcalls]; rfl
    change u.level pid = u.held pid + (u.setCall i d).pending pid
    rw [pending] at hs
    omega

theorem Balance.pending_le (h : s.Balance) {c : Call} (hc : c ∈ s.calls) (pid : Nat) : c.pending pid ≤ s.level pid := by
  obtain ⟨i, hi⟩ := getElem?_of_mem hc
  have hpend := Tally.sum_set (Call.pending pid) (b := .recv ⟨0, 0, .pop⟩) hi
  have hzero : Call.pending pid (.recv ⟨0, 0, .pop⟩) = 0 := rfl
  have hb := h.bytes pid
  rw [pending] at hb
  omega

theorem Tables.entry (h : s.Tables) {e : MqdEntry}
    (hentry : s.entry mqd = some (e, inner)) : ∃ o, s.objects[e.queue]? = some o ∧ o.inner = inner ∧ o.refs ≠ 0 := by
  obtain ⟨he, o, ho, rfl⟩ := entry_some hentry
  exact ⟨o, ho, rfl, (h.exists_iff ho).mp (.inr ⟨mqd, e, he, rfl⟩)⟩

theorem held_setInner {q a b : Nat} {f : MqInner → MqInner} {o : MqObject} (ho : s.objects[q]? = some o) (hrefs : o.refs ≠ 0)
    (ht : t.objects = (s.setInner q f).objects) (hf : (f o.inner).creatorPid = o.inner.creatorPid)
    (hcost : (f o.inner).cost + a = o.inner.cost + b) (pid : Nat) :
    t.held pid + (if pid = o.inner.creatorPid then a else 0) = s.held pid + if pid = o.inner.creatorPid then b else 0 := by
  have hsum := Tally.sum_modify (share pid) (f := fun o => { o with inner := f o.inner }) ho
  have hshare : ∀ inner : MqInner, inner.creatorPid = o.inner.creatorPid →
      share pid { o with inner := inner } = if pid = o.inner.creatorPid then inner.cost else 0 := by
    intro inner heq
    simp only [share, heq, hrefs, ne_eq, not_false_eq_true, and_true, eq_comm]
  rw [held, held, ht, setInner]
  rw [hshare _ hf] at hsum
  have hold := hshare o.inner rfl
  rw [show share pid o = _ from hold] at hsum
  split_ifs at hsum ⊢
  · dsimp only
    omega
  · exact hsum

theorem held_of_eq (ho : t.objects = s.objects) (pid : Nat) : t.held pid = s.held pid := by rw [held, held, ho]

theorem level_of_eq (hb : t.mqBytes = s.mqBytes) (pid : Nat) : t.level pid = s.level pid := by rw [level, level, hb]

theorem toNat_charge {n : Nat} (h : 48 + n < 2 ^ 64) : (MSG_OVERHEAD + UInt64.ofNat n).toNat = 48 + n := by
  have hlt : n < UInt64.size := by
    change n < 2 ^ 64
    omega
  rw [UInt64.toNat_add, UInt64.toNat_ofNat_of_lt' hlt]
  exact Nat.mod_eq_of_lt h

theorem sendCheck_cases (s : State) (c : SendCall) : (∃ rc, s.sendCheck c = .done rc) ∨ s.sendCheck c = .check ∨
    ∃ e inner, s.entry c.mqd = some (e, inner) ∧
      s.sendCheck c = .charge inner.creatorPid (MSG_OVERHEAD + UInt64.ofNat c.data.length) := by
  rw [sendCheck]
  cases hentry : s.entry c.mqd with
  | none => exact .inl ⟨_, rfl⟩
  | some x =>
    obtain ⟨e, inner⟩ := x
    dsimp only
    split
    · exact .inl ⟨_, rfl⟩
    split
    · split
      · exact .inl ⟨_, rfl⟩
      · exact .inr (.inl rfl)
    · exact .inr (.inr ⟨e, inner, rfl, rfl⟩)

section
variable (h : s.Balance) (hi : s.calls[i]? = some (.send c))
include h hi

theorem Balance.sendCheck (hp : c.point = .check) : (s.setCall i (.send { c with point := s.sendCheck c })).Balance := by
  obtain ⟨hlen, -⟩ := h.fits _ (mem_of_getElem? hi)
  have hold : ∀ pid, Call.pending pid (.send c) = 0 := fun pid => by simp [Call.pending, hp]
  refine h.setCall hi (.of_eq rfl rfl rfl rfl) rfl ⟨hlen, ?_⟩ fun pid => ?_
  · intro creator bytes hnew
    rcases s.sendCheck_cases c with ⟨rc, heq⟩ | heq | ⟨e, inner, hentry, heq⟩
    · simp [heq] at hnew
    · simp [heq] at hnew
    · obtain ⟨rfl, rfl⟩ : inner.creatorPid = creator ∧ MSG_OVERHEAD + UInt64.ofNat c.data.length = bytes := by
        simpa [heq] using hnew
      exact ⟨⟨e, inner, hentry, rfl⟩, toNat_charge (by omega)⟩
  · rw [hold]
    rcases s.sendCheck_cases c with ⟨rc, heq⟩ | heq | ⟨e, inner, -, heq⟩ <;> simp [heq, Call.pending]

theorem Balance.sendCharge (hp : c.point = .charge creator bytes) (hfit : s.level creator + bytes.toNat < 2 ^ 64) :
    ((s.mqBytesCharge soft creator bytes).1.setCall i (.send { c with
      point := if (s.mqBytesCharge soft creator bytes).2 < 0 then .done (s.mqBytesCharge soft creator bytes).2
        else .insert creator bytes })).Balance := by
  obtain ⟨hlen, hsending⟩ := h.fits _ (mem_of_getElem? hi)
  obtain ⟨hsame, hobjs, hcalls⟩ := s.tables_charge soft creator bytes
  have hold : ∀ pid, Call.pending pid (.send c) = 0 := fun pid => by simp [Call.pending, hp]
  refine h.setCall hi hsame hcalls ⟨hlen, ?_⟩ fun pid => ?_
  · intro creator' bytes' hnew
    obtain ⟨rfl, rfl⟩ : creator = creator' ∧ bytes = bytes' := by
      rcases s.charge_rc soft creator bytes with hrc | hrc <;> simp [hrc] at hnew
      exact hnew
    exact (hsending creator bytes (.inl hp)).same hsame
  · rw [hold, level_charge hfit, held_of_eq hobjs]
    rcases s.charge_rc soft creator bytes with hrc | hrc
    · simp [hrc, Call.pending]
    · simp [hrc, Call.pending]
      omega

end

theorem cost_pushMsg (inner : MqInner) (msg : PriMsg) : (pushMsg inner msg).cost = inner.cost + (48 + msg.data.length) := by
  simp only [MqInner.cost, pushMsg, map_cons, sum_cons]
  omega

theorem Balance.sendInsert (h : s.Balance) (hi : s.calls[i]? = some (.send c)) (hp : c.point = .insert creator bytes) :
    (s.sendInsert i c creator bytes).Balance := by
  obtain ⟨hlen, hsending⟩ := h.fits _ (mem_of_getElem? hi)
  obtain ⟨⟨e, inner, hentry, hcreator⟩, hbytes⟩ := hsending creator bytes (.inr hp)
  have hold : ∀ pid, Call.pending pid (.send c) = if pid = creator then bytes.toNat else 0 :=
    fun pid => by simp [Call.pending, hp]
  rw [State.sendInsert, hentry]
  dsimp only
  split
  · -- the queue has filled up: the charge is taken back
    obtain ⟨hsame, hobjs, hcalls⟩ := s.tables_discharge creator bytes
    have hle : bytes.toNat ≤ s.level creator := by
      have := h.pending_le (mem_of_getElem? hi) creator
      rwa [hold, if_pos rfl] at this
    refine h.setCall hi hsame hcalls ⟨hlen, ?_⟩ fun pid => ?_
    · intro creator' bytes' hnew
      split at hnew <;> simp at hnew
    · have hlevel := level_discharge hle pid
      have hnew : ∀ point : SendPoint, (point = .done (-11) ∨ point = .check) →
          Call.pending pid (.send { c with point := point }) = 0 := by
        rintro point (rfl | rfl) <;> rfl
      rw [hold, hnew _ (by split <;> simp), held_of_eq hobjs]
      omega
  · obtain ⟨o, ho, rfl, hrefs⟩ := h.tables.entry hentry
    refine h.setCall hi ?_ rfl ⟨hlen, ?_⟩ fun pid => ?_
    · exact .setInner (f := (pushMsg · ⟨c.prio, o.inner.seq, c.data⟩)) rfl rfl rfl rfl fun _ => rfl
    · intro creator' bytes' hnew
      simp at hnew
    · have hheld := held_setInner (a := 0) (f := (pushMsg · ⟨c.prio, o.inner.seq, c.data⟩)) (t := s.setInner e.queue _) ho
        hrefs rfl rfl (cost_pushMsg ..) pid
      rw [ite_self] at hheld
      dsimp only at hheld
      rw [hold, ← hcreator, hbytes]
      change s.level pid + s.held pid + _ =
        s.level pid + (s.setInner e.queue (pushMsg · ⟨c.prio, o.inner.seq, c.data⟩)).held pid + 0
      omega

theorem cost_popMsg {msg : PriMsg} {rest : List PriMsg} (hpop : heapPop inner.heap = some (msg, rest)) :
    (popMsg inner rest).cost + (48 + msg.data.length) = inner.cost := by
  obtain ⟨hmem, rfl, -⟩ := heapPop_spec hpop
  have hsum := sum_map_erase (fun m : PriMsg => 48 + m.data.length) hmem
  simp only [MqInner.cost, popMsg]
  omega

section
variable {c : RecvCall} (h : s.Balance) (hi : s.calls[i]? = some (.recv c))
include h hi

theorem Balance.recvPop (hp : c.point = .pop) : (s.recvPop i c).Balance := by
  have hold : ∀ pid, Call.pending pid (.recv c) = 0 := fun pid => by simp [Call.pending, hp]
  have hfail : ∀ err : Int, (s.setCall i (.recv { c with point := .failed err })).Balance := by
    intro err
    refine h.setCall hi (.of_eq rfl rfl rfl rfl) rfl trivial fun pid => ?_
    rw [hold]
    rfl
  simp only [State.recvPop]
  split
  · exact hfail _
  rename_i e inner hentry
  split
  · exact hfail _
  split
  · exact hfail _
  split
  · rename_i msg rest hpop
    obtain ⟨o, ho, rfl, hrefs⟩ := h.tables.entry hentry
    have hset : s.SameTables (s.setInner e.queue (popMsg · rest)) :=
      .setInner (f := (popMsg · rest)) rfl rfl rfl rfl fun _ => rfl
    obtain ⟨hserve, hobjs, hcalls, hbytes⟩ := tables_serve (s.setInner e.queue (popMsg · rest)) e.queue i
    refine h.setCall hi ⟨hserve.queues.trans hset.queues, hserve.mqds.trans hset.mqds,
      hserve.nextMqd.trans hset.nextMqd, hserve.skeletons.trans hset.skeletons⟩ hcalls trivial fun pid => ?_
    have hheld :=
      held_setInner (b := 0) (f := (popMsg · rest)) (t := s.setInner e.queue _) ho hrefs rfl rfl (cost_popMsg hpop)
    have hlen : 48 + msg.data.length < 2 ^ 64 := by
      have hheld := hheld o.inner.creatorPid
      rw [if_pos rfl, ite_self] at hheld
      have hb := h.bytes o.inner.creatorPid
      have hlt : s.level o.inner.creatorPid < 2 ^ 64 := UInt64.toNat_lt _
      omega
    have hlevel : ((s.setInner e.queue (popMsg · rest)).serve e.queue i).level pid = s.level pid :=
      level_of_eq hbytes pid
    rw [hold, held_of_eq hobjs]
    simp only [Call.pending, toNat_charge hlen]
    have hheld := hheld pid
    rw [ite_self] at hheld
    omega
  · split
    · exact hfail _
    · exact h

theorem Balance.recvStep (hs : s.recvStep i c = some t) : t.Balance := by
  rw [State.recvStep] at hs
  split at hs
  · rename_i hp
    cases hs
    exact h.recvPop hi hp
  · rename_i creator bytes data prio hp
    cases hs
    have hold : ∀ pid, Call.pending pid (.recv c) = if pid = creator then bytes.toNat else 0 :=
      fun pid => by simp [Call.pending, hp]
    obtain ⟨hsame, hobjs, hcalls⟩ := s.tables_discharge creator bytes
    have hle : bytes.toNat ≤ s.level creator := by
      have := h.pending_le (mem_of_getElem? hi) creator
      rwa [hold, if_pos rfl] at this
    refine h.setCall hi hsame hcalls trivial fun pid => ?_
    have hlevel := level_discharge hle pid
    rw [hold, held_of_eq hobjs]
    simp only [Call.pending]
    omega
  · cases hs
  · cases hs

end

def chargeFits (s : State) : Call → Bool
  | .send c => match c.point with
    | .charge creator bytes => s.level creator + bytes.toNat < 2 ^ 64
    | _ => true
  | .recv _ => true

theorem Balance.sendStep (h : s.Balance) (hi : s.calls[i]? = some (.send c))
    (hfit : s.chargeFits (.send c)) (hs : s.sendStep i c soft = some t) : t.Balance := by
  rw [State.sendStep] at hs
  split at hs
  · rename_i hp
    cases hs
    exact h.sendCheck hi hp
  · rename_i creator bytes hp
    cases hs
    exact h.sendCharge hi hp (by simpa [chargeFits, hp] using hfit)
  · rename_i creator bytes hp
    cases hs
    exact h.sendInsert hi hp
  · cases hs

def reservation (a : MqAttr) : Nat := 272 + a.mqMaxmsg.toUInt64.toNat * (48 + a.mqMsgsize.toUInt64.toNat)

/-- What the account of the creator and the number of descriptors must leave room for. -/
def openFits (s : State) (name : String) (attr : Option MqAttr) (pid : Nat) : Bool :=
  let a := attr.getD ⟨0, MQ_MAXMSG, MQ_MSGSIZE, 0⟩
  s.nextMqd ≠ 0xFFFFFFFFFFFFFFFF &&
    ((s.queues name).isSome || a.mqMaxmsg ≤ 0 || a.mqMsgsize ≤ 0 || s.level pid + reservation a < 2 ^ 64)

theorem toNat_reservation {a : MqAttr} (h : reservation a < 2 ^ 64) :
    (QUEUE_OVERHEAD + a.mqMaxmsg.toUInt64 * (MSG_OVERHEAD + a.mqMsgsize.toUInt64)).toNat = reservation a := by
  rw [UInt64.toNat_add, UInt64.toNat_mul, UInt64.toNat_add]
  rw [Nat.add_mod_mod, ← Nat.add_mod_mod, Nat.mul_mod_mod, Nat.add_mod_mod]
  exact Nat.mod_eq_of_lt h

section
variable (h : s.Balance) (hidle : s.idle) (hmax : s.nextMqd ≠ 0xFFFFFFFFFFFFFFFF)
include h hidle hmax

theorem Balance.reopen {q : Nat} (hq : s.queues name = some q) (oflag : UInt32) :
    ({ s with objects := s.objects.modify q fun o => { o with refs := o.refs + 1 } }.allocMqd q oflag).1.Balance := by
  obtain ⟨o, ho, -, hrefs, -⟩ := h.tables.named name q hq
  have hget : ∀ p (o' : MqObject), s.objects[p]? = some o' →
      (s.objects.modify q fun o => { o with refs := o.refs + 1 })[p]? =
        some (if q = p then { o' with refs := o'.refs + 1 } else o') := by
    intro p o' hp
    rw [getElem?_modify, hp]
    rfl
  refine h.ofIdle hidle ?_ rfl ?_
  · refine h.tables.alloc hmax rfl rfl ?_ ?_ ?_ ?_ ?_
    · exact (length_modify ..).symm ▸ (List.getElem?_eq_some_iff.mp ho).1
    · exact le_of_eq (length_modify ..).symm
    · intro p hp o' ho'
      change (s.objects.modify q _)[p]? = some o' at ho'
      rwa [getElem?_modify_ne _ _ (Ne.symm hp)] at ho'
    · intro o' ho'
      change (s.objects.modify q _)[q]? = some o' at ho'
      rw [hget q o ho, if_pos rfl] at ho'
      cases ho'
      obtain ⟨l, hl, hlen⟩ := h.tables.descriptors q o ho
      exact ⟨h.tables.reserved o (mem_of_getElem? ho), l, hl, congrArg (· + 1) hlen⟩
    · intro name' p hp
      obtain ⟨o', ho', hname, hrefs', hun⟩ := h.tables.named name' p hp
      refine ⟨_, hget p o' ho', ?_⟩
      split
      · exact ⟨hname, Nat.succ_ne_zero _, hun⟩
      · exact ⟨hname, hrefs', hun⟩
  · intro pid
    have hsum := Tally.sum_modify (share pid) (f := fun o => { o with refs := o.refs + 1 }) ho
    have hshare : share pid { o with refs := o.refs + 1 } = share pid o := by
      simp [share, hrefs]
    rw [hshare] at hsum
    exact congrArg (s.level pid + ·) (Nat.add_right_cancel hsum).symm

theorem Balance.create {u : State} (hsame : s.SameTables u) (hobjs : u.objects = s.objects) (hcalls : u.calls = s.calls)
    (hun : inner.unlinked = false) (hcharge : 0 < inner.queueCharge.toNat)
    (hlevel : ∀ p, u.level p = s.level p + if p = inner.creatorPid then inner.cost else 0) :
    ({ u with
        objects := u.objects ++ [MqObject.mk name inner 1]
        queues := update u.queues name (some u.objects.length) }.allocMqd u.objects.length oflag).1.Balance := by
  have hold : ∀ p (o : MqObject), p ≠ s.objects.length →
      ((s.objects ++ [MqObject.mk name inner 1])[p]? = some o ↔ s.objects[p]? = some o) := by
    intro p o hp
    rcases Nat.lt_or_gt_of_ne hp with hlt | hgt
    · rw [getElem?_append_left hlt]
    · rw [getElem?_eq_none (le_of_lt hgt), getElem?_eq_none]
      rwa [length_append]
  have hnew : (s.objects ++ [MqObject.mk name inner 1])[s.objects.length]? = some ⟨name, inner, 1⟩ := by
    rw [getElem?_concat_length]
  have hlt : ∀ p (o : MqObject), s.objects[p]? = some o → p ≠ s.objects.length :=
    fun p o hp => ne_of_lt (List.getElem?_eq_some_iff.mp hp).1
  rw [hobjs]
  refine h.ofIdle hidle ?_ hcalls ?_
  · have hmqds : update u.mqds u.nextMqd (some ⟨u.nextMqd, oflag, s.objects.length⟩) =
        update s.mqds s.nextMqd (some ⟨s.nextMqd, oflag, s.objects.length⟩) := by rw [hsame.mqds, hsame.nextMqd]
    refine h.tables.alloc hmax hmqds (congrArg (· + 1) hsame.nextMqd) ?_ ?_ ?_ ?_ ?_
    · exact (length_append ..).symm ▸ Nat.lt_succ_self _
    · exact (length_append ..).symm ▸ Nat.le_succ _
    · exact fun p hp o ho => (hold p o hp).mp ho
    · intro o ho
      obtain rfl := some.inj (hnew.symm.trans ho)
      refine ⟨hcharge, [], ⟨nodup_nil, fun m => ?_⟩, rfl⟩
      constructor
      · intro hm
        cases hm
      · intro hm
        obtain ⟨e, he, heq⟩ := map_eq_some_iff.mp hm
        exact absurd (heq ▸ h.tables.inRange m e he) (lt_irrefl _)
    · intro name' p hp
      change update u.queues name (some s.objects.length) name' = some p at hp
      by_cases heq : name' = name
      · rw [heq, update_self] at hp
        obtain rfl := some.inj hp
        exact ⟨_, hnew, heq.symm, Nat.one_ne_zero, hun⟩
      · rw [update_of_ne heq, hsame.queues] at hp
        obtain ⟨o, ho, hrest⟩ := h.tables.named name' p hp
        exact ⟨o, (hold p o (hlt p o ho)).mpr ho, hrest⟩
  · intro pid
    have hsum := Tally.sum_append (share pid) s.objects ⟨name, inner, 1⟩
    have hshare : share pid ⟨name, inner, 1⟩ = if pid = inner.creatorPid then inner.cost else 0 := by
      simp [share, eq_comm]
    have hl := hlevel pid
    change u.level pid + s.held pid = s.level pid + ((s.objects ++ [MqObject.mk name inner 1]).map _).sum
    rw [held]
    omega

end

theorem Balance.mqOpen (h : s.Balance) (hidle : s.idle) {attr : Option MqAttr} {pid : Nat} (hfit : s.openFits name attr pid)
    :
    (s.mqOpen name oflag attr pid soft).1.Balance := by
  obtain ⟨hmax, hfit⟩ := Bool.and_eq_true_iff.mp hfit
  have hmax : s.nextMqd ≠ 0xFFFFFFFFFFFFFFFF := by simpa using hmax
  rw [State.mqOpen]
  split
  · exact h
  split
  · rename_i q hq
    split
    · exact h
    · exact h.reopen hidle hmax hq oflag
  rename_i hq
  split
  · exact h
  dsimp only
  split
  · exact h
  rename_i hattr
  generalize attr.getD ⟨0, MQ_MAXMSG, MQ_MSGSIZE, 0⟩ = a at hfit hattr ⊢
  rw [not_or, Int64.not_le, Int64.not_le] at hattr
  have hroom : s.level pid + reservation a < 2 ^ 64 := by
    simpa [hq, Int64.not_le.mpr hattr.1, Int64.not_le.mpr hattr.2] using hfit
  have hres := toNat_reservation (a := a) (by omega)
  generalize QUEUE_OVERHEAD + a.mqMaxmsg.toUInt64 * (MSG_OVERHEAD + a.mqMsgsize.toUInt64) = charge at hres ⊢
  obtain ⟨hsame, hobjs, hcalls⟩ := s.tables_charge soft pid charge
  have hlevel : ∀ p, (s.mqBytesCharge soft pid charge).1.level p = _ := level_charge (by rwa [hres])
  rcases s.charge_rc soft pid charge with hrc | hrc
  · rw [if_pos (by rw [hrc]; decide)]
    refine h.ofIdle hidle (h.tables.same hsame) hcalls fun p => ?_
    rw [hlevel, hrc, held_of_eq hobjs]
    simp
  rw [if_neg (by rw [hrc]; decide)]
  refine h.create hidle hmax hsame hobjs hcalls rfl ?_ fun p => ?_
  · rw [hres, reservation]
    omega
  · rw [hlevel, hrc]
    simp [MqInner.cost]

/-! ### Closing -/

/-- If this is the last descriptor of its queue, the name of the queue does not denote it and it is empty. -/
def closesEmpty (s : State) (mqd : UInt64) : Bool :=
  (s.mqds mqd).all fun e => (s.objects[e.queue]?).all fun o =>
    o.refs ≠ 1 || (s.queues o.name ≠ some e.queue && o.inner.heap.isEmpty)

section
variable {mqd : UInt64} {e : MqdEntry} {o : MqObject} (h : s.Balance) (he : s.mqds mqd = some e)
  (ho : s.objects[e.queue]? = some o) (hc : s.Closed t mqd e o)
include h he ho hc

theorem Closed.tables (hlast : o.refs = 1 → s.queues o.name ≠ some e.queue) : t.Tables := by
  refine h.tables.close he ho hc.mqds hc.nextMqd hc.objects ?_
  intro name p hp
  obtain ⟨hp, -⟩ := (hc.queues name p).mp hp
  refine ⟨hp, ?_⟩
  rintro hone rfl
  obtain ⟨o', ho', rfl, -⟩ := h.tables.named name e.queue hp
  rw [ho] at ho'
  cases ho'
  exact hlast hone hp

theorem Closed.held_add (pid : Nat) : t.held pid + (if pid = o.inner.creatorPid then o.inner.cost else 0) =
    s.held pid + if pid = o.inner.creatorPid ∧ o.refs ≠ 1 then o.inner.cost else 0 := by
  have hrefs : o.refs ≠ 0 := (h.tables.exists_iff ho).mp (.inr ⟨mqd, e, he, rfl⟩)
  have hsum := Tally.sum_modify (share pid) (f := fun o => { o with refs := o.refs - 1 }) ho
  have hold : share pid o = if pid = o.inner.creatorPid then o.inner.cost else 0 := by
    simp [share, hrefs, eq_comm]
  have hnew : share pid { o with refs := o.refs - 1 } =
      if pid = o.inner.creatorPid ∧ o.refs ≠ 1 then o.inner.cost else 0 := by
    simp only [share, eq_comm]
    refine if_congr (and_congr_right fun _ => ?_) rfl rfl
    omega
  rw [hold, hnew] at hsum
  rw [held, hc.objects]
  exact hsum

theorem Closed.level_add (hone : o.refs = 1) (pid : Nat) :
    t.level pid + (if pid = o.inner.creatorPid then o.inner.queueCharge.toNat else 0) = s.level pid := by
  have hle : o.inner.queueCharge.toNat ≤ s.level o.inner.creatorPid := by
    have hheld := hc.held_add h he ho o.inner.creatorPid
    rw [if_pos rfl, if_neg (fun hf => hf.2 hone), MqInner.cost] at hheld
    have hb := h.bytes o.inner.creatorPid
    omega
  have hbytes := hc.bytes
  rw [if_pos hone] at hbytes
  rw [level_of_eq hbytes pid]
  exact level_discharge hle pid

theorem Closed.balance (hidle : s.idle)
    (hlast : o.refs = 1 → s.queues o.name ≠ some e.queue ∧ o.inner.heap = []) : t.Balance := by
  refine h.ofIdle hidle (hc.tables h he ho fun hone => (hlast hone).1) hc.calls fun pid => ?_
  have hheld := hc.held_add h he ho pid
  by_cases hone : o.refs = 1
  · have hlevel := hc.level_add h he ho hone pid
    have hcost : o.inner.cost = o.inner.queueCharge.toNat := by
      rw [MqInner.cost, (hlast hone).2, map_nil, sum_nil, add_zero]
    simp only [hone, ne_eq, not_true_eq_false, and_false, if_false, hcost] at hheld
    omega
  · have hbytes := hc.bytes
    rw [if_neg hone] at hbytes
    rw [level_of_eq hbytes]
    simp only [hone, ne_eq, not_false_eq_true, and_true] at hheld
    omega

theorem Closed.owed_named (hname : s.queues o.name = some e.queue) (pid : Nat) : t.owed pid = s.owed pid := by
  obtain ⟨o', ho', -, -, hun⟩ := h.tables.named o.name e.queue hname
  rw [ho] at ho'
  cases ho'
  have hqueues : ∀ name p, t.queues name = some p ↔ s.queues name = some p := by
    intro name p
    rw [hc.queues]
    simp [hun]
  have hexists : t.Exists = s.Exists := by
    funext p
    refine propext ?_
    simp only [Exists, hqueues, hc.mqds]
    constructor
    · rintro (hp | ⟨m, e', hm, hp⟩)
      · exact .inl hp
      · by_cases hmm : m = mqd
        · rw [hmm, update_self] at hm
          cases hm
        · rw [update_of_ne hmm] at hm
          exact .inr ⟨m, e', hm, hp⟩
    · rintro (hp | ⟨m, e', hm, rfl⟩)
      · exact .inl hp
      · by_cases hmm : m = mqd
        · rw [hmm, he] at hm
          cases hm
          exact .inl ⟨o.name, hname⟩
        · exact .inr ⟨m, e', by rwa [update_of_ne hmm], rfl⟩
  rw [owed, hc.objects, hexists]
  refine congrArg List.sum (ext_getElem? fun p => ?_)
  simp only [getElem?_map, getElem?_zipIdx, getElem?_modify, Option.map_map, Option.map_eq_map]
  congr 1
  funext x
  by_cases hpq : e.queue = p
  · simp [hpq]
  · simp [hpq]

theorem Closed.bytesExact_iff (hidle : s.idle) : t.BytesExact ↔
    (o.refs = 1 → s.queues o.name ≠ some e.queue ∧ o.inner.heap = []) := by
  have hidle' : t.idle := by rwa [idle, hc.calls]
  constructor
  · intro hexact hone
    have hb := h.bytes o.inner.creatorPid
    rw [pending_idle hidle] at hb
    have hpos := h.tables.reserved o (mem_of_getElem? ho)
    have hlevel := hc.level_add h he ho hone o.inner.creatorPid
    have ht := hexact o.inner.creatorPid
    rw [if_pos rfl] at hlevel
    have hname : s.queues o.name ≠ some e.queue := by
      intro hname
      rw [hc.owed_named h he ho hname, owed_eq_held h.tables] at ht
      omega
    refine ⟨hname, ?_⟩
    rw [owed_eq_held (hc.tables h he ho fun _ => hname)] at ht
    have hheld := hc.held_add h he ho o.inner.creatorPid
    simp only [hone, ne_eq, not_true_eq_false, and_false, if_true, if_false, MqInner.cost] at hheld
    rcases hheap : o.inner.heap with _ | ⟨m, ms⟩
    · rfl
    · simp only [hheap, map_cons, sum_cons] at hheld
      omega
  · intro hlast pid
    have hbal := hc.balance h he ho hidle hlast
    rw [owed_eq_held hbal.tables, hbal.bytes, pending_idle hidle', add_zero]

end

theorem closesEmpty_iff {e : MqdEntry} {o : MqObject} (he : s.mqds mqd = some e)
    (ho : s.objects[e.queue]? = some o) : s.closesEmpty mqd ↔
      (o.refs = 1 → s.queues o.name ≠ some e.queue ∧ o.inner.heap = []) := by
  simp [closesEmpty, he, ho, or_iff_not_imp_left]

section
variable (h : s.Balance)
include h

theorem Balance.exact (hidle : s.idle) : s.BytesExact := by
  intro pid
  rw [owed_eq_held h.tables, h.bytes, pending_idle hidle, add_zero]

theorem Balance.closed_cases (mqd : UInt64) : (s.mqClose mqd).1 = s ∧ s.closesEmpty mqd ∨
    ∃ e o, s.mqds mqd = some e ∧ s.objects[e.queue]? = some o ∧ s.Closed (s.mqClose mqd).1 mqd e o := by
  cases he : s.mqds mqd with
  | none => exact .inl ⟨by rw [mqClose, he], by rw [closesEmpty, he]; rfl⟩
  | some e =>
    obtain ⟨o, ho⟩ : ∃ o, s.objects[e.queue]? = some o := ⟨_, getElem?_eq_getElem (h.tables.inRange mqd e he)⟩
    exact .inr ⟨e, o, rfl, ho, closed_mqClose he ho⟩

theorem Balance.mqClose (hidle : s.idle) (hempty : s.closesEmpty mqd) : (s.mqClose mqd).1.Balance := by
  rcases h.closed_cases mqd with ⟨heq, -⟩ | ⟨e, o, he, ho, hc⟩
  · rwa [heq]
  · exact hc.balance h he ho hidle ((closesEmpty_iff he ho).mp hempty)

theorem Balance.bytesExact_mqClose (hidle : s.idle) (mqd : UInt64) : (s.mqClose mqd).1.BytesExact ↔ s.closesEmpty mqd := by
  rcases h.closed_cases mqd with ⟨heq, hempty⟩ | ⟨e, o, he, ho, hc⟩
  · rw [heq]
    exact ⟨fun _ => hempty, fun _ => h.exact hidle⟩
  · rw [closesEmpty_iff he ho]
    exact hc.bytesExact_iff h he ho hidle

end

/-! ### Runs -/

def sequential (s : State) : Event → Bool
  | .step _ _ => true
  | _ => s.idle

def noOverflow (s : State) : Event → Bool
  | .opens name _ attr pid _ => s.openFits name attr pid
  | .send _ data _ => data.length + 48 < 2 ^ 64
  | .step i _ => s.calls[i]?.all s.chargeFits
  | _ => true

def closesRefunded (s : State) : Event → Bool
  | .close mqd => s.closesEmpty mqd
  | _ => true

theorem balance_new : State.new.Balance := by
  refine ⟨⟨?_, ?_, ?_, ?_, ?_⟩, ?_, fun _ => rfl⟩
  · intro q o h
    simp [State.new] at h
  · intro m e h
    cases h
  · intro m e h
    cases h
  · intro name q h
    cases h
  · intro o h
    cases h
  · intro c h
    cases h

theorem Balance.call (h : s.Balance) (hidle : s.idle) {c : Call} (hfits : s.Fits c) (hzero : ∀ pid, c.pending pid = 0) :
    Balance { s with calls := s.calls ++ [c] } := by
  refine ⟨h.tables.same (.of_eq rfl rfl rfl rfl), ?_, ?_⟩
  · intro x hx
    rcases mem_append.mp hx with hx | hx
    · exact fits_idle hidle h.fits _ x hx
    · obtain rfl := mem_singleton.mp hx
      exact hfits
  · intro pid
    have hsum := Tally.sum_append (Call.pending pid) s.calls c
    rw [hzero] at hsum
    exact (h.bytes pid).trans (congrArg (s.held pid + ·) hsum.symm)

theorem Balance.step (h : s.Balance) {e : Event} (hseq : s.sequential e) (hfit : s.noOverflow e)
    (hok : s.closesRefunded e) (hs : s.step e = some t) : t.Balance := by
  cases e with
  | opens name oflag attr pid soft =>
    cases hs
    exact h.mqOpen hseq hfit
  | close mqd =>
    cases hs
    exact h.mqClose hseq hok
  | unlink name =>
    cases hs
    rw [mqUnlink]
    split
    · exact h
    rename_i q hq
    obtain ⟨o, ho, -, hrefs, -⟩ := h.tables.named name q hq
    refine h.ofIdle hseq (h.tables.unlink hq rfl rfl rfl rfl) rfl fun pid => ?_
    have hheld := held_setInner (a := 0) (f := fun inner => { inner with unlinked := true }) (t := s.setInner q _) ho hrefs
      rfl rfl rfl pid
    exact congrArg (s.level pid + ·) (Nat.add_right_cancel hheld).symm
  | notify mqd signo pid =>
    cases hs
    rw [mqNotify]
    split
    · exact h
    rename_i e he
    obtain ⟨o, ho⟩ : ∃ o, s.objects[e.queue]? = some o := ⟨_, getElem?_eq_getElem (h.tables.inRange mqd e he)⟩
    have hrefs : o.refs ≠ 0 := (h.tables.exists_iff ho).mp (.inr ⟨mqd, e, he, rfl⟩)
    refine h.ofIdle hseq (h.tables.same (.setInner rfl rfl rfl rfl fun o => ?_)) rfl fun p => ?_
    · split <;> rfl
    · have hheld := held_setInner (a := 0) (b := 0) (f := fun inner =>
          if signo = 0 then { inner with notifySig := none, notifyPid := 0 }
          else { inner with notifySig := some signo, notifyPid := pid }) (t := s.setInner e.queue _) ho hrefs rfl
        (by split <;> rfl) (by split <;> rfl) p
      exact congrArg (s.level p + ·) (Nat.add_right_cancel hheld).symm
  | send mqd data prio =>
    cases hs
    have hpoint : (startSend mqd data prio).point = .done (-22) ∨ (startSend mqd data prio).point = .check := by
      rw [startSend]
      split
      · exact .inl rfl
      · exact .inr rfl
    refine h.call hseq ⟨of_decide_eq_true hfit, ?_⟩ fun pid => ?_
    · intro creator bytes hp
      rcases hpoint with heq | heq <;> simp [heq] at hp
    · rcases hpoint with heq | heq <;> simp [Call.pending, heq]
  | receive mqd maxLen =>
    cases hs
    exact h.call hseq trivial fun _ => rfl
  | step i soft =>
    rw [State.step] at hs
    split at hs
    · rename_i c hi
      exact h.sendStep hi (by simpa [noOverflow, hi] using hfit) hs
    · rename_i c hi
      exact h.recvStep hi hs
    · cases hs

/-- In every sequential run without overflow in which the last descriptor of a queue is closed only when the queue is empty
    and its name does not denote it, `MQ_BYTES` is exact whenever no call is in progress. The next
    close keeps this exactly if it meets the condition. -/
theorem mq_bytes_exact (s : State)
    (h : Reach (fun s e t => s.step e = some t)
      (fun s e => s.sequential e = true ∧ s.noOverflow e = true ∧ s.closesRefunded e = true) State.new s)
    (hidle : s.idle = true) :
    s.BytesExact ∧ ∀ mqd, (s.mqClose mqd).1.BytesExact ↔ s.closesEmpty mqd = true := by
  have hbal : s.Balance := by
    refine h.invariant balance_new ?_
    rintro u e t hu ⟨hseq, hfit, hok⟩ hs
    exact hu.step hseq hfit hok hs
  exact ⟨hbal.exact hidle, hbal.bytesExact_mqClose hidle⟩

/-- A message is sent to a queue and received, the queue is unlinked and closed. -/
theorem mq_bytes_exact_round : ∃ s, Reach.run State.step
    (fun s e => s.sequential e && s.noOverflow e && s.closesRefunded e) State.new
    [.opens "/a" O_CREAT none 7 RLIM_INFINITY, .send 1 [5, 6] 0, .step 0 RLIM_INFINITY, .step 0 RLIM_INFINITY,
      .step 0 RLIM_INFINITY, .receive 1 8192, .step 1 0, .step 1 0, .unlink "/a", .close 1] = some s ∧
      s.level 7 = 0 ∧ s.BytesExact := by
  refine Reach.exists_run_and (A := fun s => s.level 7 = 0 ∧ s.idle = true) (by decide +kernel)
    fun s hs ⟨hlevel, hidle⟩ => ⟨hlevel, ?_⟩
  have hreach := hs.mono fun u e hok => by
    simpa only [Bool.and_eq_true, and_assoc] using hok
  exact (mq_bytes_exact s hreach hidle).1

/-- A queue is created and its only descriptor closed: the queue can still be opened by its name, but nothing is charged
    for it. -/
theorem close_refunds_named : ∃ s, Reach.run State.step (fun s e => s.sequential e && s.noOverflow e) State.new
    [.opens "/a" O_CREAT none 7 RLIM_INFINITY, .close 1] = some s ∧
      s.idle = true ∧ s.queues "/a" = some 0 ∧ s.level 7 = 0 ∧ s.owed 7 = 82672 := by
  refine Reach.exists_run_and (A := fun s => (s.idle = true ∧ s.queues "/a" = some 0 ∧ s.level 7 = 0) ∧
    s.objects.map (fun o => (o.inner.creatorPid, o.inner.cost)) = [(7, 82672)]) (by decide +kernel) ?_
  rintro s - ⟨⟨hidle, hname, hlevel⟩, hobjs⟩
  obtain ⟨o, ho, hcost⟩ := map_eq_singleton_iff.mp hobjs
  obtain ⟨hcreator, hcost⟩ := Prod.mk.inj hcost
  have hexists : s.Exists 0 := .inl ⟨"/a", hname⟩
  refine ⟨hidle, hname, hlevel, ?_⟩
  simp [owed, ho, hcreator, hcost, hexists]

end State

end Moxide.Mq
