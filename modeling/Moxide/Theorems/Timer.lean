import Moxide.Lib.Reach
import Moxide.Timer

namespace Moxide.Timer
open Lib List

/-! ### What timers should do -/

/-- A timer that has been added, that has neither run for the last time nor been cancelled. -/
structure Armed where
  handle : UInt64
  due : UInt64
  period : UInt64
  callback : Callback
  deriving DecidableEq

namespace Armed

def cancel (ts : List Armed) (handle : UInt64) : List Armed := ts.filter (·.handle ≠ handle)

def calls (ts : List Armed) (now : UInt64) : List Callback := (ts.filter (·.due ≤ now)).map (·.callback)

/-- A one-shot timer that has run is gone, a periodic one is due again one period after `now`. -/
def next (now : UInt64) (t : Armed) : Option Armed :=
  if t.due ≤ now then
    if t.period = 0 then none else some { t with due := now + t.period }
  else some t

def expire (ts : List Armed) (now : UInt64) : List Armed := ts.filterMap (next now)

end Armed

inductive Event where
  | addOneshot (deadlineNs : UInt64) (cb : Callback)
  | addPeriodic (firstNs periodNs : UInt64) (cb : Callback)
  | cancelTimer (id : UInt64)
  | expireTimers (now : UInt64)
  deriving DecidableEq

structure System where
  wheel : State
  timers : List Armed
  deriving DecidableEq

namespace System

def init : System := ⟨State.init, []⟩

def step (s : System) : Event → Option System
  | .addOneshot deadline cb =>
    let (w, id) := s.wheel.addOneshot deadline cb
    some ⟨w, ⟨id, deadline, 0, cb⟩ :: s.timers⟩
  | .addPeriodic first period cb =>
    let (w, id) := s.wheel.addPeriodic first period cb
    some ⟨w, ⟨id, first, period, cb⟩ :: s.timers⟩
  | .cancelTimer id => some ⟨s.wheel.cancelTimer id, Armed.cancel s.timers id⟩
  | .expireTimers now => some ⟨(s.wheel.expireTimers now).1, Armed.expire s.timers now⟩

end System

def fits (t : UInt64) : Bool := t.toNat < 2 ^ 44

def State.unused (s : State) (deadline : UInt64) : Bool :=
  (s.wheel.getD []).all fun p => p.2.deadlineNs ≠ deadline || p.2.id.toNat % 2 ^ 20 ≠ s.nextTimerId.toNat % 2 ^ 20

def State.rearmable : State → List Rearm → Bool
  | _, [] => true
  | s, r :: rs => fits r.deadlineNs && s.unused r.deadlineNs && (s.rearm r).rearmable rs

/-- Times below 2^44 ns, places in the wheel that are free, and no `cancel_timer` with an id that a timer that has been armed
    again was given or has now. -/
def System.ok (s : System) : Event → Bool
  | .addOneshot deadline _ => fits deadline && s.wheel.unused deadline
  | .addPeriodic first _ _ => fits first && s.wheel.unused first
  | .cancelTimer id => (s.wheel.wheel.getD []).all fun p => p.2.id == p.2.handle || p.2.id ≠ id && p.2.handle ≠ id
  | .expireTimers now =>
    fits now && State.rearmable { s.wheel with wheel := some (State.due (s.wheel.wheel.getD []) now).1 }
      (State.due (s.wheel.wheel.getD []) now).2.2

variable {now : UInt64} {s : State} {ts : List Armed} {d : UInt64} {w : Entries}

theorem key_eq (h : fits d) (id : UInt64) : key d id = d.toNat * 2 ^ 20 + id.toNat % 2 ^ 20 := by
  have hd : d.toNat < 2 ^ 44 := of_decide_eq_true h
  have hshift : (d <<< 20).toNat = d.toNat * 2 ^ 20 := by
    change d.toNat <<< 20 % 2 ^ 64 = _
    rw [Nat.shiftLeft_eq, Nat.mod_eq_of_lt (by omega)]
  have hmask : (id &&& 0xFFFFF).toNat = id.toNat % 2 ^ 20 := by
    exact Nat.and_two_pow_sub_one_eq_mod id.toNat 20
  rw [key, UInt64.toNat_add, hshift, hmask]
  exact Nat.mod_eq_of_lt (by omega)

theorem deadlineMax_eq (h : fits now = true) : ((now <<< 20) ||| 0xFFFFF).toNat = now.toNat * 2 ^ 20 + (2 ^ 20 - 1) := by
  have hd : now.toNat < 2 ^ 44 := of_decide_eq_true h
  have hshift : (now <<< 20).toNat = 2 ^ 20 * now.toNat := by
    change now.toNat <<< 20 % 2 ^ 64 = _
    rw [Nat.shiftLeft_eq, Nat.mod_eq_of_lt (by omega), mul_comm]
  rw [UInt64.toNat_or, hshift]
  change 2 ^ 20 * now.toNat ||| (2 ^ 20 - 1) = _
  rw [← Nat.two_pow_add_eq_or_of_lt (by omega), mul_comm]

theorem key_le_iff (hd : fits d) (hnow : fits now) (id : UInt64) :
    key d id ≤ ((now <<< 20) ||| 0xFFFFF).toNat ↔ d ≤ now := by
  rw [key_eq hd, deadlineMax_eq hnow, UInt64.le_iff_toNat_le]
  omega

/-! ### The wheel and the timers -/

def TimerEntry.timer (e : TimerEntry) : Armed := ⟨e.handle, e.deadlineNs, e.periodNs, e.callback⟩

structure Placed (w : Entries) : Prop where
  sorted : SortedMap.Sorted w
  key : ∀ p ∈ w, p.1 = key p.2.deadlineNs p.2.id
  fits : ∀ p ∈ w, fits p.2.deadlineNs = true

structure Holds (s : State) (ts : List Armed) : Prop where
  wheel : ∃ w, s.wheel = some w ∧ Placed w ∧ (w.map (·.2.timer)).Perm ts

theorem holds_init : Holds State.init [] :=
  ⟨[], rfl, ⟨List.Pairwise.nil, by simp, by simp⟩, List.Perm.refl _⟩

theorem holds_insert {period : UInt64} {cb : Callback} {handle : Option UInt64}
    (hw : s.wheel = some w) (hp : Placed w) (hperm : (w.map (·.2.timer)).Perm ts) (hd : fits d)
    (hfree : s.unused d) :
    Holds (s.insert w d period cb handle).1 (⟨handle.getD s.nextTimerId, d, period, cb⟩ :: ts) := by
  have hnew : ∀ p ∈ w, p.1 ≠ key d s.nextTimerId := by
    intro p hmem heq
    rw [hp.key p hmem, key_eq (hp.fits p hmem), key_eq hd] at heq
    simp only [State.unused, hw, Option.getD_some, all_eq_true] at hfree
    have hor := hfree p hmem
    rw [Bool.or_eq_true, decide_eq_true_eq, decide_eq_true_eq] at hor
    rcases hor with hne | hne
    · exact hne (UInt64.toNat_inj.mp (by omega))
    · exact hne (by omega)
  refine ⟨_, rfl, ⟨SortedMap.sorted_insert hp.sorted, ?_, ?_⟩, ?_⟩
  · intro p hmem
    rcases SortedMap.mem_insert hmem with rfl | hmem
    · rfl
    · exact hp.key p hmem
  · intro p hmem
    rcases SortedMap.mem_insert hmem with rfl | hmem
    · exact hd
    · exact hp.fits p hmem
  · exact ((SortedMap.perm_insert hnew).map _).trans (hperm.cons _)

theorem Placed.filter (h : Placed w) (p : Nat × TimerEntry → Bool) : Placed (w.filter p) :=
  ⟨h.sorted.filter _, fun q hq => h.key q (mem_filter.mp hq).1, fun q hq => h.fits q (mem_filter.mp hq).1⟩

theorem holds_cancel {id : UInt64} (h : Holds s ts)
    (hok : ((s.wheel.getD []).all fun p => p.2.id == p.2.handle || p.2.id ≠ id && p.2.handle ≠ id) = true) :
    Holds (s.cancelTimer id) (Armed.cancel ts id) := by
  obtain ⟨w, hw, hp, hperm⟩ := h
  rw [hw, all_eq_true] at hok
  have hsame : ∀ p ∈ w, decide (p.2.id ≠ id) = decide (p.2.timer.handle ≠ id) := by
    intro p hmem
    have hor := hok p hmem
    rw [Bool.or_eq_true, beq_iff_eq, Bool.and_eq_true, decide_eq_true_eq, decide_eq_true_eq] at hor
    rcases hor with heq | ⟨hid, hhandle⟩
    · rw [heq]
      rfl
    · rw [decide_eq_true hid, decide_eq_true (show p.2.timer.handle ≠ id from hhandle)]
  refine ⟨w.filter (·.2.id ≠ id), ?_, hp.filter _, ?_⟩
  · rw [State.cancelTimer, hw, Option.map_some]
  · rw [filter_congr hsame]
    have hmap := hperm.filter (·.handle ≠ id)
    rw [filter_map] at hmap
    exact hmap

theorem fire_eq {p : Nat → Bool} : ∀ {sel w : Entries}, SortedMap.Sorted w → w.filter (p ·.1) = sel →
    State.fire now (sel.map (·.1)) w = (w.filter (!p ·.1), sel.map (fun q => (q.2.callback, q.2.id)),
      (sel.filter (·.2.periodNs ≠ 0)).map fun q => ⟨now + q.2.periodNs, q.2.periodNs, q.2.callback, q.2.handle⟩) := by
  intro sel
  induction sel with
  | nil =>
    intro w hs hsel
    have hall : w.filter (!p ·.1) = w := by
      rw [filter_eq_self]
      intro q hq
      have hneg := filter_eq_nil_iff.mp hsel q hq
      rw [Bool.not_eq_true] at hneg
      rw [hneg]
      rfl
    rw [hall]
    rfl
  | cons q sel ih =>
    intro w hs hsel
    obtain ⟨hrest, hkept⟩ := SortedMap.filter_remove hs hsel
    have hmem : q ∈ w := (mem_filter.mp (hsel ▸ mem_cons_self : q ∈ w.filter (p ·.1))).1
    rw [map_cons, State.fire, SortedMap.get_of_mem hs hmem]
    simp only [ih (SortedMap.sorted_remove hs) hrest, hkept, map_cons]
    by_cases hperiod : q.2.periodNs = 0
    · rw [if_neg (not_not_intro hperiod), filter_cons_of_neg (by simp [hperiod])]
    · rw [if_pos hperiod, filter_cons_of_pos (by simp [hperiod]), map_cons]

theorem due_eq (h : Placed w) (hnow : fits now) :
    State.due w now = (w.filter (fun q => !decide (q.2.deadlineNs ≤ now)),
      (w.filter (·.2.deadlineNs ≤ now)).map (fun q => (q.2.callback, q.2.id)),
      ((w.filter (·.2.deadlineNs ≤ now)).filter (·.2.periodNs ≠ 0)).map fun q =>
        ⟨now + q.2.periodNs, q.2.periodNs, q.2.callback, q.2.handle⟩) := by
  have hsel : ∀ q ∈ w, decide (q.1 ≤ ((now <<< 20) ||| 0xFFFFF).toNat) = decide (q.2.deadlineNs ≤ now) := by
    intro q hq
    rw [h.key q hq]
    exact decide_eq_decide.mpr (key_le_iff (h.fits q hq) hnow _)
  have hkept := filter_congr fun q hq => congrArg (! ·) (hsel q hq)
  rw [← filter_congr hsel, ← hkept]
  exact fire_eq (p := fun k => decide (k ≤ ((now <<< 20) ||| 0xFFFFF).toNat)) h.sorted rfl

theorem holds_rearms {rs : List Rearm} : ∀ {s : State} {ts : List Armed}, Holds s ts → s.rearmable rs →
    Holds (rs.foldl State.rearm s) (rs.map (fun r => ⟨r.handle, r.deadlineNs, r.periodNs, r.callback⟩) ++ ts) := by
  induction rs with
  | nil =>
    intro s ts h _
    exact h
  | cons r rs ih =>
    intro s ts h hok
    rw [State.rearmable, Bool.and_eq_true, Bool.and_eq_true] at hok
    obtain ⟨⟨hfits, hfree⟩, hrest⟩ := hok
    obtain ⟨w, hw, hp, hperm⟩ := h
    have hone : Holds (s.rearm r) (⟨r.handle, r.deadlineNs, r.periodNs, r.callback⟩ :: ts) := by
      rw [State.rearm, hw]
      exact holds_insert hw hp hperm hfits hfree
    obtain ⟨w', hw', hp', hperm'⟩ := ih hone hrest
    exact ⟨w', hw', hp', hperm'.trans perm_middle⟩

theorem perm_expire (w : Entries) (now : UInt64) :
    ((((w.filter (·.2.deadlineNs ≤ now)).filter (·.2.periodNs ≠ 0)).map fun q =>
      (⟨q.2.handle, now + q.2.periodNs, q.2.periodNs, q.2.callback⟩ : Armed)) ++
      (w.filter fun q => !decide (q.2.deadlineNs ≤ now)).map (·.2.timer)).Perm
    (Armed.expire (w.map (·.2.timer)) now) := by
  induction w with
  | nil => exact List.Perm.refl _
  | cons q w ih =>
    by_cases hdue : q.2.deadlineNs ≤ now
    · by_cases hperiod : q.2.periodNs = 0
      · have hnext : Armed.next now q.2.timer = none := by
          rw [Armed.next, if_pos (show q.2.timer.due ≤ now from hdue), if_pos (show q.2.timer.period = 0 from hperiod)]
        simpa [Armed.expire, hnext, hdue, hperiod] using ih
      have hnext : Armed.next now q.2.timer = some ⟨q.2.handle, now + q.2.periodNs, q.2.periodNs, q.2.callback⟩ := by
        rw [Armed.next, if_pos (show q.2.timer.due ≤ now from hdue), if_neg (show ¬ q.2.timer.period = 0 from hperiod)]
        rfl
      simpa [Armed.expire, hnext, hdue, hperiod] using ih
    · have hnext : Armed.next now q.2.timer = some q.2.timer := by
        rw [Armed.next, if_neg (show ¬ q.2.timer.due ≤ now from hdue)]
      have hmove := perm_middle.trans (ih.cons q.2.timer)
      simpa [Armed.expire, hnext, hdue] using hmove

theorem holds_expire (h : Holds s ts) (hnow : fits now)
    (hok : State.rearmable { s with wheel := some (State.due (s.wheel.getD []) now).1 }
      (State.due (s.wheel.getD []) now).2.2) :
    Holds (s.expireTimers now).1 (Armed.expire ts now) := by
  obtain ⟨w, hw, hp, hperm⟩ := h
  rw [hw, Option.getD_some, due_eq hp hnow] at hok
  have hkept : Holds { s with wheel := some (w.filter fun q => !decide (q.2.deadlineNs ≤ now)) }
      ((w.filter fun q => !decide (q.2.deadlineNs ≤ now)).map (·.2.timer)) :=
    ⟨_, rfl, hp.filter _, List.Perm.refl _⟩
  obtain ⟨w', hw', hp', hperm'⟩ := holds_rearms hkept hok
  have hexpire : (s.expireTimers now).1 =
      (State.due w now).2.2.foldl State.rearm { s with wheel := some (State.due w now).1 } := by
    rw [State.expireTimers, hw]
  rw [map_map] at hperm'
  rw [hexpire, due_eq hp hnow]
  exact ⟨w', hw', hp', hperm'.trans ((perm_expire w now).trans (hperm.filterMap _))⟩

theorem calls_expire (h : Holds s ts) (hnow : fits now) : ((s.expireTimers now).2.map (·.1)).Perm (Armed.calls ts now) := by
  obtain ⟨w, hw, hp, hperm⟩ := h
  have hcalls : (s.expireTimers now).2 = (w.filter (·.2.deadlineNs ≤ now)).map (fun q => (q.2.callback, q.2.id)) := by
    rw [State.expireTimers, hw]
    dsimp only
    rw [due_eq hp hnow]
  have hmap := (hperm.filter (·.due ≤ now)).map (·.callback)
  rw [filter_map, map_map] at hmap
  rw [hcalls, map_map]
  exact hmap

theorem holds_step {s t : System} {e : Event} (h : Holds s.wheel s.timers) (hok : s.ok e) (hs : s.step e = some t) :
    Holds t.wheel t.timers := by
  cases e with
  | addOneshot deadline cb =>
    obtain ⟨hfits, hfree⟩ := Bool.and_eq_true_iff.mp hok
    obtain ⟨w, hw, hp, hperm⟩ := h
    simp only [System.step, State.addOneshot, hw] at hs
    cases hs
    exact holds_insert hw hp hperm hfits hfree
  | addPeriodic first period cb =>
    obtain ⟨hfits, hfree⟩ := Bool.and_eq_true_iff.mp hok
    obtain ⟨w, hw, hp, hperm⟩ := h
    simp only [System.step, State.addPeriodic, hw] at hs
    cases hs
    exact holds_insert hw hp hperm hfits hfree
  | cancelTimer id =>
    cases hs
    exact holds_cancel h hok
  | expireTimers now =>
    obtain ⟨hnow, hrearm⟩ := Bool.and_eq_true_iff.mp hok
    cases hs
    exact holds_expire h hnow hrearm

theorem holds_reach {s : System}
    (h : Reach (fun s e t => System.step s e = some t) (fun s e => System.ok s e) System.init s) :
    Holds s.wheel s.timers :=
  h.invariant (I := fun s => Holds s.wheel s.timers) holds_init fun _ _ _ hs hok hstep => holds_step hs hok hstep

/-- In every run that meets the condition, each expiry that meets it calls the timers that are due, each once. -/
theorem expireTimers_calls_due {s : System}
    (h : Reach (fun s e t => System.step s e = some t) (fun s e => System.ok s e = true) System.init s) (now : UInt64)
    (hok : s.ok (.expireTimers now) = true) :
    ((s.wheel.expireTimers now).2.map (·.1)).Perm (Armed.calls s.timers now) :=
  calls_expire (holds_reach h) (Bool.and_eq_true_iff.mp hok).1

/-- A one-shot timer and a periodic one, the first cancelled; the periodic one runs and is due again. -/
def twoTimers : List Event :=
  [.addOneshot 30 1, .addPeriodic 10 10 2, .addOneshot 20 3, .cancelTimer 1, .expireTimers 15]

theorem expireTimers_calls_due_two : ∃ s : System, s.timers = [⟨3, 20, 0, 3⟩, ⟨2, 25, 10, 2⟩] ∧
    s.ok (.expireTimers 27) = true ∧
    ((s.wheel.expireTimers 27).2.map (·.1)).Perm (Armed.calls s.timers 27) := by
  have hrun : ((Reach.run System.step System.ok System.init twoTimers).map fun s => (s.timers, s.ok (.expireTimers 27))) =
      some ([⟨3, 20, 0, 3⟩, ⟨2, 25, 10, 2⟩], true) := by
    decide +kernel
  obtain ⟨s, hs, hdata⟩ := Option.map_eq_some_iff.mp hrun
  rw [Prod.mk.injEq] at hdata
  exact ⟨s, hdata.1, hdata.2, expireTimers_calls_due (Reach.of_run _ .start hs) 27 hdata.2⟩

/-- A periodic timer that has run is not stopped by the id its caller was given, and a deadline of 2^44 ns is over at
    once. -/
theorem expireTimers_calls_wrong :
    (((Reach.run System.step (fun _ _ => true) System.init
        [.addPeriodic 10 10 7, .expireTimers 10, .cancelTimer 1]).map fun s =>
      ((s.wheel.expireTimers 20).2, Armed.calls s.timers 20)) = some ([(7, 2)], [])) ∧
    (((Reach.run System.step (fun _ _ => true) System.init [.addOneshot 0x100000000000 7]).map fun s =>
      ((s.wheel.expireTimers 0).2, Armed.calls s.timers 0)) = some ([(7, 1)], [])) := by
  decide +kernel

end Moxide.Timer
