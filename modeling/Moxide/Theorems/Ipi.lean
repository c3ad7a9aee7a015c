import Moxide.Lib.Mask
import Moxide.Lib.Reach
import Moxide.Lib.Word
import Moxide.Ipi

/-! A shootdown that has returned has taken effect, as long as calls, which share the ack mask, do not overlap. -/

namespace Moxide.Ipi
open Lib List Option State
open Function (update)
open IpiKind (tlbShootdown)

theorem toNat_pageOf (a : UInt64) : (pageOf a).toNat = a.toNat / 4096 * 4096 :=
  Word.toNat_clear_low (k := 12) (by decide) (by decide) a

variable {stop start : UInt64} {v : View} {log : UInt64 → UInt64 → Prop} {w : View} {old new : Prop} {h : Handler}
  {kind : IpiKind}

theorem flushLoop_covers {va : UInt64} : ∀ {pages : List UInt64}, va.toNat % 4096 = 0 →
    flushLoop stop va = some pages → ∀ a, va ≤ a → a < stop → pageOf a ∈ pages := by
  induction va using flushLoop.induct stop with
  | case1 va hlt hsum ih =>
    intro pages halign h a hle ha
    rw [flushLoop, if_pos hlt, if_pos hsum] at h
    obtain ⟨rest, hrest, rfl⟩ := map_eq_some_iff.mp h
    have hnext : (va + 0x1000).toNat = va.toNat + 4096 := Word.toNat_add_of_lt hsum
    rw [UInt64.le_iff_toNat_le] at hle
    by_cases hin : a.toNat < va.toNat + 4096
    · have hpage : pageOf a = va := by
        rw [← UInt64.toNat_inj, toNat_pageOf]
        omega
      rw [hpage]
      exact mem_cons_self
    · refine mem_cons_of_mem _ (ih (by omega) hrest a ?_ ha)
      rw [UInt64.le_iff_toNat_le]
      omega
  | case2 va hlt hsum =>
    intro pages _ h
    rw [flushLoop, if_pos hlt, if_neg hsum] at h
    cases h
  | case3 va hlt =>
    intro pages _ _ a hle ha
    exact absurd (UInt64.lt_of_le_of_lt hle ha) hlt

theorem localTlbFlush_covers {pages : List UInt64} (h : localTlbFlush start stop = some pages) :
    ∀ a, start ≤ a → a < stop → pageOf a ∈ pages := by
  have hpage := toNat_pageOf start
  intro a hle ha
  refine flushLoop_covers (by omega) h a ?_ ha
  rw [UInt64.le_iff_toNat_le] at hle ⊢
  omega

/-! ### A shootdown as one CPU sees it -/

inductive Tlb where
  | out
  | read
  | flush (start stop : UInt64)
  | flushed
  deriving DecidableEq, Repr

def Handler.tlb : Handler → Tlb
  | .read _ => .read
  | .flush _ start stop => .flush start stop
  | .done _ => .flushed
  | .clear _ => .flushed
  | _ => .out

structure View where
  pending : Bool
  tlb : Tlb
  ack : Bool
  start : UInt64
  stop : UInt64
  deriving DecidableEq, Repr

def asked (pending : UInt32) : Bool := pending &&& tlbShootdown.bit ≠ 0

theorem asked_zero : asked 0 = false := by decide

def State.view (s : State) (j : Nat) : View :=
  ⟨asked (s.pending j), (s.handlers j).tlb, Mask.has s.ack j, (s.reqs j).start, (s.reqs j).stop⟩

def View.Quiet (v : View) : Prop := v.pending = false ∧ v.tlb = .out

/-- Where a shootdown of a range may stand at a CPU once its ack mask is stored; `log` says that the CPU has flushed. -/
inductive View.Underway (start stop : UInt64) (log : Prop) : View → Prop where
  | unsent : Underway start stop log ⟨false, .out, true, start, stop⟩
  | sent : Underway start stop log ⟨true, .out, true, start, stop⟩
  | reading : Underway start stop log ⟨false, .read, true, start, stop⟩
  | flushing : Underway start stop log ⟨false, .flush start stop, true, start, stop⟩
  | flushed (h : log) : Underway start stop log ⟨false, .flushed, true, start, stop⟩
  | acked (h : log) : Underway start stop log ⟨false, .out, false, start, stop⟩

/-- What the steps of a CPU's interrupts do to its view; `log` says which ranges the step flushes. -/
inductive View.Move (log : UInt64 → UInt64 → Prop) : View → View → Prop where
  | same (v : View) : Move log v v
  | take (ack : Bool) (start stop : UInt64) : Move log ⟨true, .out, ack, start, stop⟩ ⟨false, .read, ack, start, stop⟩
  | read (pending ack : Bool) (start stop : UInt64) :
      Move log ⟨pending, .read, ack, start, stop⟩ ⟨pending, .flush start stop, ack, start, stop⟩
  | flush (pending ack : Bool) (a b start stop : UInt64) (h : log a b) :
      Move log ⟨pending, .flush a b, ack, start, stop⟩ ⟨pending, .flushed, ack, start, stop⟩
  | clear (pending ack : Bool) (start stop : UInt64) :
      Move log ⟨pending, .flushed, ack, start, stop⟩ ⟨pending, .out, false, start, stop⟩

theorem View.Quiet.move (h : v.Quiet) (hm : v.Move log w) : w = v := by
  obtain ⟨hpending, htlb⟩ := h
  cases hm with
  | same => rfl
  | take => cases hpending
  | read => cases htlb
  | flush => cases htlb
  | clear => cases htlb

theorem View.Underway.move
    (h : v.Underway start stop old) (hm : v.Move log w) (hold : old → new) (hnew : log start stop → new) :
    w.Underway start stop new := by
  cases h with
  | unsent =>
    obtain rfl := View.Quiet.move ⟨rfl, rfl⟩ hm
    exact .unsent
  | sent =>
    cases hm with
    | same => exact .sent
    | take => exact .reading
  | reading =>
    cases hm with
    | same => exact .reading
    | read => exact .flushing
  | flushing =>
    cases hm with
    | same => exact .flushing
    | flush _ _ _ _ _ _ hlog => exact .flushed (hnew hlog)
  | flushed hlog =>
    cases hm with
    | same => exact .flushed (hold hlog)
    | clear => exact .acked (hold hlog)
  | acked hlog =>
    obtain rfl := View.Quiet.move ⟨rfl, rfl⟩ hm
    exact .acked (hold hlog)

theorem View.Underway.mono (h : v.Underway start stop old) (hold : old → new) : v.Underway start stop new :=
  h.move (View.Move.same v : v.Move (fun _ _ => False) v) hold False.elim

theorem View.Underway.of_ack {log : Prop} (h : v.Underway start stop log) (hack : v.ack = false) : log ∧ v.Quiet := by
  cases h with
  | acked hlog => exact ⟨hlog, rfl, rfl⟩
  | unsent | sent | reading | flushing | flushed => cases hack

def Call.Logged (flushes : List Flush) (c : Call) (j : Nat) : Prop :=
  ∃ k pages, c.began ≤ k ∧ flushes[k]? = some ⟨j, pages⟩ ∧ localTlbFlush c.start c.stop = some pages

theorem Call.Logged.append {flushes : List Flush} {c : Call} {j : Nat} (h : c.Logged flushes j) (l : List Flush) :
    c.Logged (flushes ++ l) j := by
  obtain ⟨k, pages, hk, hget, hpages⟩ := h
  have hlt := (List.getElem?_eq_some_iff.mp hget).1
  exact ⟨k, pages, hk, by rw [getElem?_append_left hlt, hget], hpages⟩

/-- What holds while a call is at a place: nothing is on its way before the ack mask is stored, afterwards every other
    CPU is underway, and those it has not yet sent to wait for that. -/
def Active (n : Nat) (s : State) (c : Call) : Prop :=
  match c.pc with
  | .request cpu ackMask => (∀ j < n, (s.view j).Quiet) ∧ (∀ j < n, Mask.has ackMask j = decide (j < cpu ∧ j ≠ c.me)) ∧
      ∀ j < n, j < cpu → j ≠ c.me → (s.view j).start = c.start ∧ (s.view j).stop = c.stop
  | .send cpu => (s.view c.me).Quiet ∧ (∀ j < n, j ≠ c.me → (s.view j).Underway c.start c.stop (c.Logged s.flushes j)) ∧
      ∀ j < n, j ≠ c.me → cpu ≤ j → s.view j = ⟨false, .out, true, c.start, c.stop⟩
  | .wait => (s.view c.me).Quiet ∧ ∀ j < n, j ≠ c.me → (s.view j).Underway c.start c.stop (c.Logged s.flushes j)
  | .returned => ∀ j < n, j ≠ c.me → c.Logged s.flushes j

structure Inv (n : Nat) (s : State) : Prop where
  active : ∀ (i : Nat) (c : Call), s.calls[i]? = some c → Active n s c
  me : ∀ (i : Nat) (c : Call), s.calls[i]? = some c → c.me < n
  began : ∀ (i : Nat) (c : Call), s.calls[i]? = some c → c.began ≤ s.flushes.length
  single : ∀ (i i' : Nat) (c c' : Call), s.calls[i]? = some c → s.calls[i']? = some c' → c.pc ≠ .returned →
    c'.pc ≠ .returned → i = i'
  quiet : (∀ (i : Nat) (c : Call), s.calls[i]? = some c → c.pc = .returned) → ∀ j < n, (s.view j).Quiet

theorem inv_boot (n : Nat) : Inv n State.boot where
  active i c h := by cases h
  me i c h := by cases h
  began i c h := by cases h
  single i i' c c' h := by cases h
  quiet _ j _ := ⟨by simp [view, boot, asked_zero], rfl⟩

/-! ### Steps of the interrupts -/

structure Moves (s t : State) (cpu : Nat) : Prop where
  calls : t.calls = s.calls
  others : ∀ j, j ≠ cpu → t.view j = s.view j
  own : ∃ l, t.flushes = s.flushes ++ l ∧
    (s.view cpu).Move (fun a b => ∃ pages, localTlbFlush a b = some pages ∧ l = [⟨cpu, pages⟩]) (t.view cpu)

section Moves
variable {n cpu : Nat} {s t : State}

variable {j : Nat}

theorem Moves.view {c : Call} (h : Moves s t cpu) (hbegan : c.began ≤ s.flushes.length)
    (hv : (s.view j).Underway c.start c.stop (c.Logged s.flushes j)) :
    (t.view j).Underway c.start c.stop (c.Logged t.flushes j) := by
  obtain ⟨l, hl, hmove⟩ := h.own
  rw [hl]
  by_cases hj : j = cpu
  · subst hj
    refine hv.move hmove (fun hlog => hlog.append l) ?_
    rintro ⟨pages, hpages, rfl⟩
    exact ⟨s.flushes.length, pages, hbegan, by simp, hpages⟩
  · rw [h.others j hj]
    exact hv.mono fun hlog => hlog.append l

theorem Moves.quiet (h : Moves s t cpu) (hv : (s.view j).Quiet) : t.view j = s.view j := by
  obtain ⟨l, -, hmove⟩ := h.own
  by_cases hj : j = cpu
  · subst hj
    exact hv.move hmove
  · exact h.others j hj

theorem Moves.active {c : Call} (h : Moves s t cpu) (hbegan : c.began ≤ s.flushes.length) (hact : Active n s c) :
    Active n t c := by
  unfold Active at hact ⊢
  split at hact
  · obtain ⟨hquiet, hmask, hreq⟩ := hact
    refine ⟨fun j hj => ?_, hmask, fun j hj hlt hne => ?_⟩
    · rw [h.quiet (hquiet j hj)]
      exact hquiet j hj
    · rw [h.quiet (hquiet j hj)]
      exact hreq j hj hlt hne
  · obtain ⟨hme, hway, hunsent⟩ := hact
    refine ⟨by rw [h.quiet hme]; exact hme, fun j hj hne => h.view hbegan (hway j hj hne), fun j hj hne hle => ?_⟩
    have hv := hunsent j hj hne hle
    rw [h.quiet (by rw [hv]; exact ⟨rfl, rfl⟩), hv]
  · obtain ⟨hme, hway⟩ := hact
    exact ⟨by rw [h.quiet hme]; exact hme, fun j hj hne => h.view hbegan (hway j hj hne)⟩
  · intro j hj hne
    obtain ⟨l, hl, -⟩ := h.own
    rw [hl]
    exact (hact j hj hne).append l

theorem Inv.moves (h : Inv n s) (hm : Moves s t cpu) : Inv n t := by
  obtain ⟨l, hl, -⟩ := hm.own
  refine ⟨?_, ?_, ?_, ?_, ?_⟩
  · intro i c hc
    rw [hm.calls] at hc
    exact hm.active (h.began i c hc) (h.active i c hc)
  · rw [hm.calls]
    exact h.me
  · intro i c hc
    rw [hm.calls] at hc
    rw [hl, length_append]
    exact Nat.le_add_right_of_le (h.began i c hc)
  · rw [hm.calls]
    exact h.single
  · intro hall j hj
    rw [hm.calls] at hall
    have hquiet := h.quiet hall j hj
    rw [hm.quiet hquiet]
    exact hquiet

theorem view_setHandler_ne (h : Handler) (hj : j ≠ cpu) : (s.setHandler cpu h).view j = s.view j := by
  simp [view, setHandler, hj]

theorem view_setHandler (h : Handler) : (s.setHandler cpu h).view cpu = { s.view cpu with tlb := h.tlb } := by
  simp [view, setHandler]

theorem moves_outside (hold : (s.handlers cpu).tlb = .out) (hnew : h.tlb = .out) : Moves s (s.setHandler cpu h) cpu where
  calls := rfl
  others j hj := view_setHandler_ne h hj
  own := by
    refine ⟨[], (append_nil _).symm, ?_⟩
    have hv : (s.setHandler cpu h).view cpu = s.view cpu := by
      rw [view_setHandler, hnew, ← hold]
      rfl
    rw [hv]
    exact .same _

theorem moves_afterSchedule (hold : (s.handlers cpu).tlb = .out) (pending : UInt32) :
    Moves s (s.afterSchedule cpu pending) cpu := by
  unfold afterSchedule
  split
  · exact moves_outside hold rfl
  · exact moves_outside hold rfl

theorem view_swap_ne (hj : j ≠ cpu) : ({ s with pending := update s.pending cpu 0 } : State).view j = s.view j := by
  simp [view, hj]

theorem view_swap : ({ s with pending := update s.pending cpu 0 } : State).view cpu =
    { s.view cpu with pending := false } := by
  simp [view, asked_zero]

theorem moves_dispatch (hs : s.dispatch cpu = some t) : Moves s t cpu := by
  unfold dispatch at hs
  split at hs
  · rename_i hidle
    have htlb : (s.view cpu).tlb = .out := by
      change (s.handlers cpu).tlb = .out
      rw [hidle]
      rfl
    obtain rfl := some.inj hs
    -- whatever is swapped out, only a set shootdown bit moves the view
    have hsame : asked (s.pending cpu) = false →
        ({ s with pending := update s.pending cpu 0 } : State).view cpu = s.view cpu := by
      intro hask
      rw [view_swap, ← hask]
      rfl
    split
    · rename_i hzero
      exact ⟨rfl, fun j hj => view_swap_ne hj, [], (append_nil _).symm,
        by rw [hsame (by rw [hzero]; exact asked_zero)]; exact .same _⟩
    split
    · rename_i hask
      refine ⟨rfl, fun j hj => ?_, [], (append_nil _).symm, ?_⟩
      · rw [view_setHandler_ne _ hj, view_swap_ne hj]
      · have hv : s.view cpu = ⟨true, .out, (s.view cpu).ack, (s.view cpu).start, (s.view cpu).stop⟩ := by
          rw [← htlb, ← (decide_eq_true hask : asked (s.pending cpu))]
          rfl
        rw [view_setHandler, view_swap, hv]
        exact .take ..
    rename_i hask
    refine ⟨rfl, fun j hj => ?_, [], (append_nil _).symm, ?_⟩
    · rw [view_setHandler_ne _ hj, view_swap_ne hj]
    · have hv : (({ s with pending := update s.pending cpu 0 } : State).setHandler cpu
          (.rest (s.pending cpu))).view cpu = s.view cpu := by
        rw [view_setHandler, hsame (decide_eq_false hask)]
        change ({ s.view cpu with tlb := .out } : View) = s.view cpu
        rw [← htlb]
      rw [hv]
      exact .same _
  · cases hs

theorem view_of_handler (hh : s.handlers cpu = h) : s.view cpu =
    ⟨(s.view cpu).pending, h.tlb, (s.view cpu).ack, (s.view cpu).start, (s.view cpu).stop⟩ := by
  rw [← hh]
  rfl

theorem moves_handlerStep (hcpu : cpu < 64) (hs : s.handlerStep cpu = some t) : Moves s t cpu := by
  unfold handlerStep at hs
  split at hs
  · cases hs
  · rename_i pending hread
    obtain rfl := some.inj hs
    refine ⟨rfl, fun j hj => view_setHandler_ne _ hj, [], (append_nil _).symm, ?_⟩
    rw [view_setHandler, view_of_handler hread]
    exact .read ..
  · rename_i pending start stop hflush
    obtain ⟨pages, hpages, rfl⟩ := map_eq_some_iff.mp hs
    refine ⟨rfl, fun j hj => view_setHandler_ne _ hj, [⟨cpu, pages⟩], rfl, ?_⟩
    rw [view_setHandler, view_of_handler hflush]
    exact .flush _ _ _ _ _ _ ⟨pages, hpages, rfl⟩
  · rename_i pending hdone
    obtain rfl := some.inj hs
    refine ⟨rfl, fun j hj => ?_, [], (append_nil _).symm, ?_⟩
    · rw [view_setHandler_ne _ hj]
      simp [view, setReq, hj]
    · have hv : ((s.setReq cpu { s.reqs cpu with done := true }).setHandler cpu (.clear pending)).view cpu = s.view cpu := by
        rw [view_setHandler, view_of_handler hdone]
        simp [view, setReq, Handler.tlb]
      rw [hv]
      exact .same _
  · rename_i pending hclear
    obtain rfl := some.inj hs
    refine ⟨rfl, fun j hj => ?_, [], (append_nil _).symm, ?_⟩
    · rw [view_setHandler_ne _ hj]
      simp [view, Mask.has_erase hcpu, Ne.symm hj]
    · have hv : (({ s with ack := s.ack &&& ~~~(1 <<< UInt64.ofNat cpu) } : State).setHandler cpu (.rest pending)).view cpu =
          ⟨(s.view cpu).pending, .out, false, (s.view cpu).start, (s.view cpu).stop⟩ := by
        rw [view_setHandler]
        simp [view, Mask.has_erase hcpu, Handler.tlb]
      rw [hv, view_of_handler hclear]
      exact .clear ..
  · rename_i pending hrest
    have hout : (s.handlers cpu).tlb = .out := by rw [hrest]; rfl
    split at hs
    · obtain rfl := some.inj hs
      obtain ⟨-, hothers, hown⟩ := moves_outside (h := .idle) hout rfl
      exact ⟨rfl, hothers, hown⟩
    · obtain rfl := some.inj hs
      exact moves_afterSchedule hout _
  · cases hs

theorem moves_resume {k : Nat} (hs : s.resume cpu k = some t) : Moves s t cpu := by
  unfold resume at hs
  split at hs
  · rename_i pending hidle _
    obtain rfl := some.inj hs
    have hout : (s.handlers cpu).tlb = .out := by rw [hidle]; rfl
    obtain ⟨hcalls, hothers, hown⟩ := moves_afterSchedule
      (s := { s with suspended := update s.suspended cpu ((s.suspended cpu).eraseIdx k) }) hout pending
    exact ⟨hcalls, hothers, hown⟩
  · cases hs

theorem asked_or_other (p : UInt32) (hk : kind ≠ .tlbShootdown) : asked (p ||| kind.bit) = asked p := by
  have hdisj : kind.bit &&& tlbShootdown.bit = 0 := by
    cases kind with
    | tlbShootdown => exact absurd rfl hk
    | reschedule => decide
    | funcCall => decide
    | panicHalt => decide
  have hand : (p ||| kind.bit) &&& tlbShootdown.bit = p &&& tlbShootdown.bit := by
    rw [← UInt32.toBitVec_inj] at hdisj ⊢
    refine BitVec.and_or_distrib_right.trans ?_
    change _ ||| (kind.bit &&& tlbShootdown.bit).toBitVec = _
    rw [hdisj]
    exact BitVec.or_zero
  rw [asked, hand, asked]

theorem moves_send (hk : kind ≠ .tlbShootdown) : Moves s (s.setPending cpu kind) cpu := by
  refine ⟨rfl, fun j hj => by simp [view, setPending, hj], [], (append_nil _).symm, ?_⟩
  have hv : (s.setPending cpu kind).view cpu = s.view cpu := by
    simp [view, setPending, asked_or_other _ hk]
  rw [hv]
  exact .same _

end Moves

/-! ### Steps of the calls -/

section Calls
variable {n i : Nat} {s t : State} {c : Call}

theorem Inv.advance {pc : Pc} {l : List Flush} (h : Inv n s) (hc : s.calls[i]? = some c) (hrun : c.pc ≠ .returned)
    (hcalls : t.calls = s.calls.modify i fun c => { c with pc := pc }) (hlog : t.flushes = s.flushes ++ l)
    (hact : Active n t { c with pc := pc }) (hquiet : pc = .returned → ∀ j < n, (t.view j).Quiet) : Inv n t := by
  have hself : t.calls[i]? = some { c with pc := pc } := by rw [hcalls, getElem?_modify_eq, hc]; rfl
  have hother : ∀ k, k ≠ i → t.calls[k]? = s.calls[k]? := by
    intro k hk
    rw [hcalls, getElem?_modify_ne _ _ hk.symm]
  have hreturned : ∀ k d, k ≠ i → s.calls[k]? = some d → d.pc = .returned := by
    intro k d hk hd
    by_contra hne
    exact hk (h.single k i d c hd hc hne hrun)
  refine ⟨fun k d hd => ?_, fun k d hd => ?_, fun k d hd => ?_, fun k k' d d' hd hd' hne hne' => ?_, fun hall => ?_⟩
  · by_cases hk : k = i
    · subst hk
      obtain rfl := some.inj (hself.symm.trans hd)
      exact hact
    rw [hother k hk] at hd
    have hold := h.active k d hd
    unfold Active at hold ⊢
    rw [hreturned k d hk hd] at hold ⊢
    intro j hj hne
    rw [hlog]
    exact (hold j hj hne).append l
  · by_cases hk : k = i
    · subst hk
      obtain rfl := some.inj (hself.symm.trans hd)
      exact h.me k c hc
    · exact h.me k d (hother k hk ▸ hd)
  · rw [hlog, length_append]
    refine Nat.le_add_right_of_le ?_
    by_cases hk : k = i
    · subst hk
      obtain rfl := some.inj (hself.symm.trans hd)
      exact h.began k c hc
    · exact h.began k d (hother k hk ▸ hd)
  · by_cases hk : k = i
    · by_cases hk' : k' = i
      · rw [hk, hk']
      · exact absurd (hreturned k' d' hk' (hother k' hk' ▸ hd')) hne'
    · exact absurd (hreturned k d hk (hother k hk ▸ hd)) hne
  · exact hquiet (hall i _ hself)

theorem view_setReq_ne {cpu j : Nat} (req : ShootdownReq) (hj : j ≠ cpu) : (s.setReq cpu req).view j = s.view j := by
  simp [view, setReq, hj]

theorem view_setReq {cpu : Nat} (req : ShootdownReq) :
    (s.setReq cpu req).view cpu = { s.view cpu with start := req.start, stop := req.stop } := by
  simp [view, setReq]

variable {ackMask : UInt64}

theorem active_request {cpu : Nat} (hn : n ≤ 64) (hcpu : cpu < n) (hne : cpu ≠ c.me)
    (hact : Active n s { c with pc := .request cpu ackMask }) :
    Active n ((s.setReq cpu { c with done := false }).setPc i
      (.request (cpu + 1) (ackMask ||| 1 <<< UInt64.ofNat cpu)))
      { c with pc := .request (cpu + 1) (ackMask ||| 1 <<< UInt64.ofNat cpu) } := by
  obtain ⟨hquiet, hmask, hreq⟩ := hact
  refine ⟨fun j hj => ?_, fun j hj => ?_, fun j hj hlt hme => ?_⟩
  · by_cases hjc : j = cpu
    · subst hjc
      change ((s.setReq j _).view j).Quiet
      exact hquiet j hj
    · change ((s.setReq cpu _).view j).Quiet
      exact hquiet j hj
  · rw [Mask.has_insert (lt_of_lt_of_le hcpu hn), hmask j hj]
    by_cases hjc : cpu = j
    · subst hjc
      simp [hne]
    · have hiff : j < cpu + 1 ↔ j < cpu := by omega
      simp [hjc, hiff]
  · by_cases hjc : j = cpu
    · subst hjc
      change ((s.setReq j _).view j).start = _ ∧ ((s.setReq j _).view j).stop = _
      rw [view_setReq]
      exact ⟨rfl, rfl⟩
    · change ((s.setReq cpu _).view j).start = _ ∧ ((s.setReq cpu _).view j).stop = _
      rw [view_setReq_ne _ hjc]
      exact hreq j hj (by omega) hme

theorem active_skip (hact : Active n s { c with pc := .request c.me ackMask }) :
    Active n (s.setPc i (.request (c.me + 1) ackMask)) { c with pc := .request (c.me + 1) ackMask } := by
  obtain ⟨hquiet, hmask, hreq⟩ := hact
  refine ⟨hquiet, fun j hj => ?_, fun j hj hlt hne => ?_⟩
  · have hiff : (j < c.me ∧ j ≠ c.me) ↔ (j < c.me + 1 ∧ j ≠ c.me) := by omega
    rw [hmask j hj, decide_eq_decide]
    exact hiff
  · have hlt : j < c.me := lt_of_le_of_ne (Nat.lt_succ_iff.mp hlt) hne
    exact hreq j hj hlt hne

theorem active_store {cpu : Nat} (hcpu : n ≤ cpu) (hme : c.me < n)
    (hact : Active n s { c with pc := .request cpu ackMask }) :
    Active n ({ s with ack := ackMask }.setPc i (.send 0)) { c with pc := .send 0 } := by
  obtain ⟨hquiet, hmask, hreq⟩ := hact
  have hview : ∀ j < n, j ≠ c.me →
      ({ s with ack := ackMask }.setPc i (.send 0)).view j = ⟨false, .out, true, c.start, c.stop⟩ := by
    intro j hj hne
    obtain ⟨hpending, htlb⟩ := hquiet j hj
    obtain ⟨hstart, hstop⟩ := hreq j hj (by omega) hne
    have hack : Mask.has ackMask j := by
      rw [hmask j hj]
      exact decide_eq_true ⟨by omega, hne⟩
    change (⟨(s.view j).pending, (s.view j).tlb, Mask.has ackMask j, (s.view j).start, (s.view j).stop⟩ : View) = _
    rw [hpending, htlb, hack, hstart, hstop]
  refine ⟨hquiet c.me hme, fun j hj hne => ?_, fun j hj hne _ => hview j hj hne⟩
  rw [hview j hj hne]
  exact .unsent

theorem asked_or (p : UInt32) : asked (p ||| tlbShootdown.bit) = true := by
  have hand : (p ||| tlbShootdown.bit) &&& tlbShootdown.bit = tlbShootdown.bit := by
    rw [← UInt32.toBitVec_inj]
    ext k hk
    simp only [UInt32.toBitVec_and, UInt32.toBitVec_or, BitVec.getElem_and, BitVec.getElem_or]
    exact Bool.and_eq_right_iff_imp.mpr fun h => by rw [h, Bool.or_true]
  rw [asked, hand]
  decide

theorem active_send {cpu : Nat} (hcpu : cpu < n) (hne : cpu ≠ c.me) (hact : Active n s { c with pc := .send cpu }) :
    Active n ((s.setPending cpu .tlbShootdown).setPc i (.send (cpu + 1))) { c with pc := .send (cpu + 1) } := by
  obtain ⟨hme, hway, hunsent⟩ := hact
  have hother : ∀ j, j ≠ cpu → ((s.setPending cpu .tlbShootdown).setPc i (.send (cpu + 1))).view j = s.view j := by
    intro j hj
    simp [view, setPending, setPc, hj]
  refine ⟨?_, fun j hj hjme => ?_, fun j hj hjme hle => ?_⟩
  · rw [hother _ hne.symm]
    exact hme
  · by_cases hjc : j = cpu
    · subst hjc
      have hv := hunsent j hj hjme (le_refl j)
      have hsent : ((s.setPending j .tlbShootdown).setPc i (.send (j + 1))).view j = { s.view j with pending := true } := by
        simp [view, setPending, setPc, asked_or]
      rw [hsent, hv]
      exact .sent
    · rw [hother j hjc]
      exact hway j hj hjme
  · rw [hother j (by omega)]
    exact hunsent j hj hjme (by omega)

theorem active_flush {cpu : Nat} (pages : List UInt64) (hact : Active n s { c with pc := .send cpu }) :
    Active n ((s.flushed c.me pages).setPc i .wait) { c with pc := .wait } := by
  obtain ⟨hme, hway, -⟩ := hact
  exact ⟨hme, fun j hj hne => (hway j hj hne).mono fun hlog => hlog.append _⟩

theorem inv_callStep (hn : n ≤ 64) (h : Inv n s) (hc : s.calls[i]? = some c) (hs : s.callStep n i c = some t) : Inv n t := by
  have hact := h.active i c hc
  have hme := h.me i c hc
  unfold callStep at hs
  split at hs
  · rename_i cpu ackMask hpc
    have hrun : c.pc ≠ .returned := by rw [hpc]; exact Pc.noConfusion
    have hact : Active n s { c with pc := .request cpu ackMask } := hpc ▸ hact
    split at hs
    · rename_i hcpu
      split at hs
      · rename_i hne
        obtain rfl := some.inj hs
        exact h.advance hc hrun rfl (append_nil _).symm (active_request hn hcpu hne hact) Pc.noConfusion
      rename_i heq
      obtain rfl := not_ne_iff.mp heq
      obtain rfl := some.inj hs
      exact h.advance hc hrun rfl (append_nil _).symm (active_skip hact) Pc.noConfusion
    · rename_i hcpu
      obtain rfl := some.inj hs
      exact h.advance hc hrun rfl (append_nil _).symm (active_store (Nat.le_of_not_lt hcpu) hme hact) Pc.noConfusion
  · rename_i cpu hpc
    have hrun : c.pc ≠ .returned := by rw [hpc]; exact Pc.noConfusion
    have hact : Active n s { c with pc := .send cpu } := hpc ▸ hact
    split at hs
    · rename_i hcpu
      split at hs
      · rename_i hne
        obtain rfl := some.inj hs
        exact h.advance hc hrun rfl (append_nil _).symm (active_send hcpu hne hact) Pc.noConfusion
      obtain rfl := some.inj hs
      obtain ⟨hquiet, hway, hunsent⟩ := hact
      exact h.advance hc hrun rfl (append_nil _).symm
        ⟨hquiet, hway, fun j hj hne hle => hunsent j hj hne (Nat.le_of_succ_le hle)⟩ Pc.noConfusion
    · obtain ⟨pages, -, rfl⟩ := map_eq_some_iff.mp hs
      exact h.advance hc hrun rfl rfl (active_flush pages hact) Pc.noConfusion
  · rename_i hpc
    have hrun : c.pc ≠ .returned := by rw [hpc]; exact Pc.noConfusion
    have hact : Active n s { c with pc := .wait } := hpc ▸ hact
    obtain rfl := some.inj hs
    split
    · exact h
    rename_i hack
    obtain ⟨hquiet, hway⟩ := hact
    -- the mask is zero, so that no CPU owes an ack
    have hdone : ∀ j < n, j ≠ c.me → c.Logged s.flushes j ∧ (s.view j).Quiet := by
      intro j hj hne
      refine (hway j hj hne).of_ack ?_
      change Mask.has s.ack j = false
      rw [not_ne_iff.mp hack, Mask.has_zero]
    refine h.advance hc hrun rfl (append_nil _).symm (fun j hj hne => (hdone j hj hne).1) fun _ j hj => ?_
    by_cases hne : j = c.me
    · rw [hne]
      exact hquiet
    · exact (hdone j hj hne).2
  · cases hs

theorem inv_shootdown {me : Nat} {start stop : UInt64} {asid : UInt16} (h : Inv n s) (hme : me < n)
    (hall : ∀ (i : Nat) (c : Call), s.calls[i]? = some c → c.pc = .returned) :
    Inv n (s.shootdown n me start stop asid) := by
  have hquiet := h.quiet hall
  have hnew : ∀ (k : Nat) (d : Call), (s.shootdown n me start stop asid).calls[k]? = some d → s.calls[k]? = some d ∨
      (k = s.calls.length ∧ d = ⟨me, start, stop, asid, if n ≤ 1 then .returned else .request 0 0, s.flushes.length⟩) := by
    intro k d hd
    by_cases hk : k < s.calls.length
    · exact .inl (getElem?_append_left hk ▸ hd)
    have hd : [_][k - s.calls.length]? = some d := getElem?_append_right (Nat.le_of_not_lt hk) ▸ hd
    obtain ⟨hlt, rfl⟩ := List.getElem?_eq_some_iff.mp hd
    have hzero : k - s.calls.length = 0 := Nat.lt_one_iff.mp hlt
    exact .inr ⟨by omega, by simp [hzero]⟩
  refine ⟨fun k d hd => ?_, fun k d hd => ?_, fun k d hd => ?_, fun k k' d d' hd hd' hne hne' => ?_, fun _ => hquiet⟩
  · rcases hnew k d hd with hd | ⟨-, rfl⟩
    · have hold := h.active k d hd
      unfold Active at hold ⊢
      exact hold
    split
    · intro j hj hne
      change j ≠ me at hne
      omega
    · exact ⟨hquiet, fun j _ => by simp, fun j _ hlt => absurd hlt (Nat.not_lt_zero j)⟩
  · rcases hnew k d hd with hd | ⟨-, rfl⟩
    · exact h.me k d hd
    · exact hme
  · rcases hnew k d hd with hd | ⟨-, rfl⟩
    · exact h.began k d hd
    · exact le_refl _
  · rcases hnew k d hd with hd | ⟨rfl, -⟩
    · exact absurd (hall k d hd) hne
    · rcases hnew k' d' hd' with hd' | ⟨rfl, -⟩
      · exact absurd (hall k' d' hd') hne'
      · rfl

end Calls

def State.alone (s : State) : Event → Bool
  | .shootdown .. => s.calls.all (·.pc = .returned)
  | _ => true

theorem inv_step {n : Nat} {s t : State} {e : Event} (hn : n ≤ 64) (h : Inv n s) (halone : s.alone e)
    (hs : s.step n e = some t) : Inv n t := by
  cases e with
  | shootdown me start stop asid =>
    obtain ⟨hme, hs⟩ := ite_none_right_eq_some.mp hs
    obtain rfl := some.inj hs
    refine inv_shootdown h hme fun i c hc => ?_
    exact of_decide_eq_true (List.all_eq_true.mp halone c (mem_of_getElem? hc))
  | call i =>
    obtain ⟨c, hc, hs⟩ := bind_eq_some_iff.mp hs
    exact inv_callStep hn h hc hs
  | interrupt cpu =>
    obtain ⟨-, hs⟩ := ite_none_right_eq_some.mp hs
    exact h.moves (moves_dispatch hs)
  | handler cpu =>
    obtain ⟨hcpu, hs⟩ := ite_none_right_eq_some.mp hs
    exact h.moves (moves_handlerStep (lt_of_lt_of_le hcpu hn) hs)
  | resume cpu k =>
    obtain ⟨-, hs⟩ := ite_none_right_eq_some.mp hs
    exact h.moves (moves_resume hs)
  | send cpu kind =>
    obtain ⟨⟨-, hk⟩, hs⟩ := ite_none_right_eq_some.mp hs
    obtain rfl := some.inj hs
    exact h.moves (moves_send hk)

def State.FlushedSince (s : State) (c : Call) (j : Nat) : Prop :=
  ∃ k f, c.began ≤ k ∧ s.flushes[k]? = some f ∧ f.cpu = j ∧ ∀ a, c.start ≤ a → a < c.stop → pageOf a ∈ f.pages

/-- With up to 64 CPUs, in every run in which no call begins while another is in progress: when a call has returned, every
    other CPU has flushed its range since the call began. -/
theorem shootdown_effective {n : Nat} (hn : n ≤ 64) {s : State}
    (h : Reach (fun s e t => s.step n e = some t) (fun s e => s.alone e = true) State.boot s) :
    ∀ c ∈ s.calls, c.pc = .returned → ∀ j < n, j ≠ c.me → s.FlushedSince c j := by
  have hinv : Inv n s := Reach.invariant (inv_boot n) (fun _ _ _ hs halone hstep => inv_step hn hs halone hstep) h
  intro c hc hpc j hj hne
  obtain ⟨i, hi⟩ := mem_iff_getElem?.mp hc
  have hact := hinv.active i c hi
  unfold Active at hact
  rw [hpc] at hact
  obtain ⟨k, pages, hk, hget, hpages⟩ := hact j hj hne
  exact ⟨k, ⟨j, pages⟩, hk, hget, rfl, localTlbFlush_covers hpages⟩

/-! ### One call at a time, and two -/

/-- A call on CPU 0 with two CPUs online: its steps up to the wait, the interrupt on CPU 1 and the end of the wait. -/
def oneCall : List Event :=
  [.shootdown 0 0x1000 0x3000 7, .call 0, .call 0, .call 0, .call 0, .call 0, .call 0, .interrupt 1, .handler 1, .handler 1,
    .handler 1, .handler 1, .call 0]

def oneCallRun : Option State := Reach.run (State.step 2) State.alone State.boot oneCall

theorem oneCallRun_ends : oneCallRun.map (fun s => (s.calls.map (·.pc), s.flushes)) =
    some ([.returned], [⟨0, [0x1000, 0x2000]⟩, ⟨1, [0x1000, 0x2000]⟩]) := by
  decide +kernel

theorem shootdown_effective_one_call : ∃ s, oneCallRun = some s ∧ s.calls.map (·.pc) = [.returned] ∧
    ∀ c ∈ s.calls, c.pc = .returned → ∀ j < 2, j ≠ c.me → s.FlushedSince c j := by
  obtain ⟨s, hs, hend⟩ := map_eq_some_iff.mp oneCallRun_ends
  exact ⟨s, hs, congrArg Prod.fst hend, shootdown_effective (by decide) (Reach.of_run oneCall .start hs)⟩

/-- Calls on CPU 0 and CPU 1 with two CPUs online. The second stores its own ack mask over that of the first, CPU 0 takes the
    interrupt of the second, and the mask is zero before CPU 1 has taken that of the first. -/
def twoCalls : List Event :=
  [.shootdown 0 0x1000 0x2000 7, .call 0, .call 0, .call 0, .call 0, .call 0, .shootdown 1 0x5000 0x6000 9, .call 1, .call 1,
    .call 1, .call 1, .call 1, .interrupt 0, .handler 0, .handler 0, .handler 0, .handler 0, .handler 0, .call 0, .call 0]

theorem twoCalls_end : (Reach.run (State.step 2) (fun _ _ => true) State.boot twoCalls).map
    (fun s => (s.calls[0]?, s.flushes)) =
      some (some ⟨0, 0x1000, 0x2000, 7, .returned, 0⟩, [⟨0, [0x5000]⟩, ⟨0, [0x1000]⟩]) := by
  decide +kernel

/-- The first call has returned and CPU 1 has flushed nothing. -/
theorem shootdown_lost : ∃ s c, Reach (fun s e t => s.step 2 e = some t) (fun _ _ => True) State.boot s ∧ c ∈ s.calls ∧
    c.pc = .returned ∧ 1 ≠ c.me ∧ ¬s.FlushedSince c 1 := by
  obtain ⟨s, hs, hend⟩ := map_eq_some_iff.mp twoCalls_end
  have hcall : s.calls[0]? = some _ := congrArg Prod.fst hend
  have hlog : s.flushes = _ := congrArg Prod.snd hend
  refine ⟨s, _, (Reach.of_run twoCalls .start hs).mono fun _ _ _ => trivial, mem_of_getElem? hcall, rfl, by decide, ?_⟩
  rintro ⟨k, f, -, hget, hcpu, -⟩
  rw [hlog] at hget
  have hmem := mem_of_getElem? hget
  simp only [mem_cons, not_mem_nil, or_false] at hmem
  rcases hmem with rfl | rfl
  · cases hcpu
  · cases hcpu

end Moxide.Ipi
