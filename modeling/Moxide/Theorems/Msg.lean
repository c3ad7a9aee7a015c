import Moxide.Msg

/-! A queue of messages over any sequence of `msgsnd` and `msgrcv`: its accounts are exact, and each call fails, waits,
    adds a message or takes one exactly when it should. -/

namespace Moxide.Msg
open List

/-- The message at position `i` is the one that `msgtyp` asks for. -/
def Selects (l : List Message) (msgtyp : Int) (i : Nat) (m : Message) : Prop :=
  l[i]? = some m ∧
    if msgtyp = 0 then i = 0
    else if 0 < msgtyp then m.mtype = msgtyp ∧ ∀ j x, l[j]? = some x → x.mtype = msgtyp → i ≤ j
    else m.mtype ≤ -msgtyp ∧
      ∀ j x, l[j]? = some x → x.mtype ≤ -msgtyp → m.mtype ≤ x.mtype ∧ (x.mtype = m.mtype → i ≤ j)

structure Exact (q : MsgQueue) : Prop where
  qnum : q.msgQnum = q.messages.length
  cbytes : q.msgCbytes = (q.messages.map (·.data.length)).sum
  le : q.msgCbytes ≤ q.msgQbytes

/-- What a call does, and when: a call that fails or goes on waiting leaves the queue as it is. -/
inductive Does (q : MsgQueue) : Call → Outcome × MsgQueue → Prop where
  | badType {mtype : Int} {data : List UInt8} {nowait : Bool} (h : mtype ≤ 0) :
    Does q (.msgsnd mtype data nowait) (.err (-22), q)
  | tooLong {m : Message} {nowait : Bool} (htype : 0 < m.mtype) (h : MSGMAX < m.data.length) :
    Does q (.msgsnd m.mtype m.data nowait) (.err (-90), q)
  | full {m : Message} {nowait : Bool} (htype : 0 < m.mtype) (hlen : m.data.length ≤ MSGMAX)
      (h : q.msgQbytes < q.msgCbytes + m.data.length) :
    Does q (.msgsnd m.mtype m.data nowait) (if nowait then .err (-11) else .spin, q)
  | send {m : Message} {nowait : Bool} (htype : 0 < m.mtype) (hlen : m.data.length ≤ MSGMAX)
      (h : q.msgCbytes + m.data.length ≤ q.msgQbytes) :
    Does q (.msgsnd m.mtype m.data nowait) (.sent, q.push m)
  | noMatch {msgsz : Nat} {msgtyp : Int} {nowait : Bool} (h : ∀ i m, ¬Selects q.messages msgtyp i m) :
    Does q (.msgrcv msgsz msgtyp nowait) (if nowait then .err (-11) else .spin, q)
  | tooShort {msgsz i : Nat} {msgtyp : Int} {nowait : Bool} {m : Message} (h : Selects q.messages msgtyp i m)
      (hlen : msgsz < m.data.length) :
    Does q (.msgrcv msgsz msgtyp nowait) (.err (-90), q)
  | receive {msgsz i : Nat} {msgtyp : Int} {nowait : Bool} {m : Message} (h : Selects q.messages msgtyp i m)
      (hlen : m.data.length ≤ msgsz) :
    Does q (.msgrcv msgsz msgtyp nowait) (.received m, q.take i m)

theorem minByKey_first {l : List (Message × Nat)} {m : Message × Nat} (hl : l.Pairwise fun a b => a.2 < b.2)
    (hm : minByKey l = some m) : m ∈ l ∧ ∀ a ∈ l, m.1.mtype ≤ a.1.mtype ∧ (a.1.mtype = m.1.mtype → m.2 ≤ a.2) := by
  obtain ⟨hmin, as, bs, rfl, has⟩ := find?_eq_some_iff_append.mp hm
  have hle := fun a ha => of_decide_eq_true (all_eq_true.mp hmin a ha)
  refine ⟨by simp, fun a ha => ⟨hle a ha, fun heq => ?_⟩⟩
  rcases mem_append.mp ha with ha | ha
  · -- an element before the first minimal one is not minimal
    have hnot := has a ha
    rw [heq, hmin] at hnot
    cases hnot
  rcases mem_cons.mp ha with rfl | ha
  · rfl
  · exact le_of_lt ((pairwise_cons.mp (pairwise_append.mp hl).2.1).1 a ha)

theorem target_selects {l : List Message} {msgtyp : Int} {i : Nat} (h : target l msgtyp = some i) :
    ∃ m, Selects l msgtyp i m := by
  rw [target] at h
  unfold Selects
  split_ifs at h ⊢ with hzero hnil hpos
  · cases h
    cases l with
    | nil => exact absurd rfl hnil
    | cons m l => exact ⟨m, rfl, rfl⟩
  · obtain ⟨hi, htype, hfirst⟩ := findIdx?_eq_some_iff_getElem.mp h
    refine ⟨l[i], getElem?_eq_getElem hi, of_decide_eq_true htype, fun j x hj hx => ?_⟩
    by_contra hlt
    obtain ⟨hjlt, rfl⟩ := List.getElem?_eq_some_iff.mp hj
    exact hfirst j (not_le.mp hlt) (decide_eq_true hx)
  · obtain ⟨⟨m, k⟩, hm, rfl⟩ := Option.map_eq_some_iff.mp h
    have hsorted : l.zipIdx.Pairwise fun a b => a.2 < b.2 :=
      pairwise_map.mp (zipIdx_map_snd 0 l ▸ pairwise_lt_range')
    obtain ⟨hmem, hmin⟩ := minByKey_first (hsorted.filter _) hm
    obtain ⟨hmem, htype⟩ := mem_filter.mp hmem
    exact ⟨m, mem_zipIdx_iff_getElem?.mp hmem, of_decide_eq_true htype, fun j x hj hx =>
      hmin (x, j) (mem_filter.mpr ⟨mem_zipIdx_iff_getElem?.mpr hj, decide_eq_true hx⟩)⟩

theorem minByKey_eq_none {l : List (Message × Nat)} (h : minByKey l = none) : l = [] := by
  cases hmin : l.argmin (·.1.mtype) with
  | none => exact argmin_eq_none.mp hmin
  | some m =>
    have hle : ∀ x ∈ l, m.1.mtype ≤ x.1.mtype := fun x hx => le_of_mem_argmin (f := (·.1.mtype)) hx hmin
    exact absurd (all_eq_true.mpr fun x hx => decide_eq_true (hle x hx)) (find?_eq_none.mp h m (argmin_mem hmin))

theorem not_selects {l : List Message} {msgtyp : Int} (h : target l msgtyp = none) (i : Nat) (m : Message) :
    ¬Selects l msgtyp i m := by
  rw [target] at h
  unfold Selects
  rintro ⟨hget, hsel⟩
  have hmem := mem_of_getElem? hget
  split_ifs at h hsel with hzero hnil hpos
  · rw [isEmpty_iff.mp hnil] at hmem
    cases hmem
  · exact absurd (decide_eq_true hsel.1) (by simpa using findIdx?_eq_none_iff.mp h m hmem)
  · -- the message itself is among those that are compared
    have hempty := minByKey_eq_none (Option.map_eq_none_iff.mp h)
    have hin : (m, i) ∈ l.zipIdx.filter (·.1.mtype ≤ -msgtyp) :=
      mem_filter.mpr ⟨mem_zipIdx_iff_getElem?.mpr hget, decide_eq_true hsel.1⟩
    rw [hempty] at hin
    cases hin

theorem does_call (q : MsgQueue) (c : Call) : Does q c (q.call c) := by
  cases c with
  | msgsnd mtype data nowait =>
    rw [MsgQueue.call]
    by_cases htype : mtype ≤ 0
    · rw [if_pos htype]
      exact .badType htype
    rw [if_neg htype]
    rw [not_le] at htype
    by_cases hlen : data.length > MSGMAX
    · rw [if_pos hlen]
      exact .tooLong (m := ⟨mtype, data⟩) htype hlen
    rw [if_neg hlen]
    rw [not_lt] at hlen
    by_cases hfull : q.msgCbytes + data.length > q.msgQbytes
    · rw [if_pos hfull]
      exact .full (m := ⟨mtype, data⟩) htype hlen hfull
    · rw [if_neg hfull]
      exact .send (m := ⟨mtype, data⟩) htype hlen (not_lt.mp hfull)
  | msgrcv msgsz msgtyp nowait =>
    rw [MsgQueue.call]
    cases htarget : target q.messages msgtyp with
    | none => exact .noMatch (not_selects htarget)
    | some i =>
      obtain ⟨m, hm⟩ := target_selects htarget
      simp only [hm.1]
      split_ifs with hlen
      · obtain ⟨hi, rfl⟩ := List.getElem?_eq_some_iff.mp hm.1
        rw [insertIdx_eraseIdx_getElem hi]
        exact .tooShort hm hlen
      · exact .receive hm (not_lt.mp hlen)

theorem Exact.call {q : MsgQueue} (h : Exact q) (c : Call) : Exact (q.call c).2 := by
  have hdoes := does_call q c
  generalize q.call c = r at hdoes
  cases hdoes with
  | badType | tooLong | full | noMatch | tooShort => exact h
  | send _ _ hroom => exact ⟨by simp [MsgQueue.push, h.qnum], by simp [MsgQueue.push, h.cbytes], hroom⟩
  | receive hm =>
    obtain ⟨hi, rfl⟩ := List.getElem?_eq_some_iff.mp hm.1
    have hsum := ((getElem_cons_eraseIdx_perm hi).map fun m : Message => m.data.length).sum_eq
    rw [map_cons, ← h.cbytes] at hsum
    refine ⟨?_, Nat.sub_eq_of_eq_add' hsum.symm, (Nat.sub_le ..).trans h.le⟩
    exact (congrArg (· - 1) h.qnum).trans (length_eraseIdx_of_lt hi).symm

/-- Whatever was called before, the accounts are exact, and the next call does what it should. -/
theorem msg_queue_exact (cs : List Call) (c : Call) :
    let q := MsgQueue.calls {} cs
    Exact q ∧ Does q c (q.call c) := by
  have hrun : ∀ q, Exact q → Exact (q.calls cs) := by
    induction cs with
    | nil => exact fun q h => h
    | cons c cs ih => exact fun q h => ih _ (h.call c)
  exact ⟨hrun _ ⟨rfl, rfl, Nat.zero_le _⟩, does_call _ c⟩

end Moxide.Msg
