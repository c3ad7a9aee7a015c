import Moxide.Lib.Reach
import Moxide.Wait

/-! A parent that sleeps in `wait4` is woken by its children, unless a `notify_exit` ends before it sleeps. -/

namespace Moxide.Wait
open Scheduler (ProcState)
open Lib List Option State Table

namespace Table
variable {t : Table} {pid q : Nat} {p : Proc} {f : Proc → Proc}

theorem find_modify (hf : ∀ p, (f p).pid = p.pid) :
    (t.modify pid f).find q = if q = pid then (t.find pid).map f else t.find q :=
  Keyed.find_modify hf

theorem find_setState (state : ProcState) : (t.setState pid state).find q =
    if q = pid then (t.find pid).map fun p => { p with state := state } else t.find q :=
  find_modify fun _ => rfl

theorem stateOf_of_find (h : t.find q = some p) : t.stateOf q = some p.state := by
  rw [stateOf, h, map_some]

theorem exists_find {state : ProcState} (h : t.stateOf q = some state) : ∃ p, t.find q = some p ∧ p.state = state :=
  map_eq_some_iff.mp h

theorem exists_alive (h : t.alive q) : ∃ p, t.find q = some p ∧ p.state ≠ .zombie := by
  rw [alive, Bool.and_eq_true, isSome_iff_exists, decide_eq_true_eq] at h
  obtain ⟨⟨state, hstate⟩, hne⟩ := h
  obtain ⟨p, hp, rfl⟩ := exists_find hstate
  refine ⟨p, hp, fun hz => hne ?_⟩
  rw [hstate, hz]

end Table

namespace State

theorem setCall_calls (s : State) (caller r : Nat) (c : Call) :
    (s.setCall caller c).calls r = if r = caller then some c else s.calls r :=
  Function.update_apply s.calls caller (some c) r

theorem setNotify_notifies (s : State) (pid q : Nat) (point : NotifyPoint) :
    (s.setNotify pid point).notifies q = if q = pid then some point else s.notifies q :=
  Function.update_apply s.notifies pid (some point) q

theorem wake_notifies (s : State) (pid : Nat) : (s.wake pid).notifies = s.notifies := by
  unfold wake
  split <;> rfl

theorem wake_calls (s : State) (pid : Nat) : (s.wake pid).calls = s.calls := by
  unfold wake
  split <;> rfl

theorem find_of_wake {s : State} {pid q : Nat} {p : Proc} (h : (s.wake pid).table.find q = some p) :
    ∃ state, s.table.find q = some { p with state := state } := by
  unfold wake at h
  split at h
  · replace h : (s.table.setState pid .ready).find q = some p := h
    rw [find_setState] at h
    split at h
    · rename_i hq
      obtain ⟨p', hp', rfl⟩ := map_eq_some_iff.mp h
      exact ⟨p'.state, hq ▸ hp'⟩
    · exact ⟨p.state, h⟩
  · exact ⟨p.state, h⟩

end State

namespace Proc

variable (p : Proc)

theorem report_pid : p.report.pid = p.pid := by
  unfold report
  split <;> rfl

theorem report_ppid : p.report.ppid = p.ppid := by
  unfold report
  split <;> rfl

theorem report_pgid : p.report.pgid = p.pgid := by
  unfold report
  split <;> rfl

theorem report_blocked : p.report.state = .blocked ↔ p.state = .blocked := by
  unfold report
  split <;> simp_all

theorem report_zombie : p.report.state = .zombie ↔ p.state = .zombie := by
  unfold report
  split <;> simp_all

end Proc

/-- A look at the parent by a `notify_exit` is clear of a `wait4` of that parent that waits for this child and stands between
    its scan and its sleep. -/
def State.clear (s : State) : Event → Bool
  | .notifyStep pid =>
    match s.notifies pid, s.table.find pid with
    | some (.check ppid), some p | some (.lock ppid), some p =>
      (s.calls ppid).all fun c => !(c.point = .block && matchesPid p.pid p.pgid c.pid)
    | _, _ => true
  | _ => true

theorem scan_harvested {caller : Nat} {pid : Int} {options : UInt32} {any : Bool} {t : Table} {h : Harvest}
    (hs : scan caller pid options any t = .harvested h) :
    ∃ p ∈ t, p.pid = h.childPid ∧ p.ppid = caller ∧ (h.zombie → p.state = .zombie) := by
  have later {p : Proc} {rest : Table} :
      (∃ q ∈ rest, q.pid = h.childPid ∧ q.ppid = caller ∧ (h.zombie → q.state = .zombie)) →
        ∃ q ∈ p :: rest, q.pid = h.childPid ∧ q.ppid = caller ∧ (h.zombie → q.state = .zombie) := by
    rintro ⟨q, hq, hdata⟩
    exact ⟨q, mem_cons_of_mem p hq, hdata⟩
  induction t generalizing any with
  | nil =>
    unfold scan at hs
    split at hs <;> cases hs
  | cons p rest ih =>
    unfold scan at hs
    split at hs
    · exact later (ih hs)
    rename_i hparent
    have hparent : p.ppid = caller := not_not.mp hparent
    split at hs
    · exact later (ih hs)
    split at hs
    · rename_i hzombie
      cases hs
      exact ⟨p, mem_cons_self, rfl, hparent, fun _ => hzombie⟩
    · split at hs
      · cases hs
        exact ⟨p, mem_cons_self, rfl, hparent, fun hz => nomatch hz⟩
      · exact later (ih hs)
    · split at hs
      · cases hs
        exact ⟨p, mem_cons_self, rfl, hparent, fun hz => nomatch hz⟩
      · exact later (ih hs)
    all_goals exact later (ih hs)

theorem scan_hasLiving {caller : Nat} {pid : Int} {options : UInt32} {any : Bool} {t : Table}
    (hs : scan caller pid options any t = .hasLiving) :
    ∀ p ∈ t, p.ppid = caller → matchesPid p.pid p.pgid pid → p.state ≠ .zombie := by
  induction t generalizing any with
  | nil => exact fun p hp => (nomatch hp)
  | cons q rest ih =>
    have hnext : ∀ {any : Bool}, scan caller pid options any rest = .hasLiving →
        (q.ppid = caller → matchesPid q.pid q.pgid pid → q.state ≠ .zombie) →
          ∀ p ∈ q :: rest, p.ppid = caller → matchesPid p.pid p.pgid pid → p.state ≠ .zombie := by
      intro any hrest hq p hp
      rcases mem_cons.mp hp with rfl | hp
      · exact hq
      · exact ih hrest p hp
    unfold scan at hs
    split at hs
    · rename_i hparent
      exact hnext hs fun hq => absurd hq hparent
    split at hs
    · rename_i hmatch
      refine hnext hs fun _ hq => ?_
      rw [hq] at hmatch
      cases hmatch
    split at hs
    · cases hs
    · rename_i hstate
      split at hs
      · cases hs
      · exact hnext hs fun _ _ => by rw [hstate]; simp
    · rename_i hstate
      split at hs
      · cases hs
      · exact hnext hs fun _ _ => by rw [hstate]; simp
    all_goals
      rename_i hstate
      exact hnext hs fun _ _ => by rw [hstate]; simp

/-! ### The invariant -/

def Call.takes (c : Call) : Option Harvest :=
  match c.point with
  | .report h | .check h | .remove h => some h
  | .scan | .block | .asleep | .done _ => none

structure Waits (s : State) (caller : Nat) (c : Call) (p : Proc) : Prop where
  find : s.table.find p.pid = some p
  parent : p.ppid = caller
  matching : matchesPid p.pid p.pgid c.pid = true
  zombie : p.state = .zombie

def Due (s : State) (caller : Nat) (c : Call) : Prop := ∀ p, Waits s caller c p → s.notifies p.pid ≠ some .done

/-- The child that the call is about to take is there, and is a zombie if the call has seen one. -/
def Takes (s : State) (caller : Nat) (hit : Harvest) : Prop :=
  ∃ p, s.table.find hit.childPid = some p ∧ p.ppid = caller ∧ (hit.zombie = true → p.state = .zombie)

def Sleeps (s : State) (caller : Nat) : Prop := ∃ c, s.calls caller = some c ∧ c.point = .asleep ∧ Due s caller c

theorem Sleeps.keep {s t : State} {r : Nat} (h : Sleeps s r) (hcalls : t.calls r = s.calls r)
    (hdue : ∀ {c}, Due s r c → Due t r c) : Sleeps t r := by
  obtain ⟨c, hc, hpoint, hnotify⟩ := h
  exact ⟨c, hcalls.trans hc, hpoint, hdue hnotify⟩

/-- Processes have numbers that are not given out again, a `notify_exit` knows the parent, a process that blocks or is about
    to has all notifications before it, and a zombie that has been reported is gone. -/
structure Inv (s : State) : Prop where
  pos : 0 < s.nextPid
  nodup : (s.table.map (·.pid)).Nodup
  bound : ∀ q p, s.table.find q = some p → 0 < q ∧ q < s.nextPid
  notify_bound : ∀ q, s.nextPid ≤ q → s.notifies q = none
  notify_parent : ∀ q r p, s.notifies q = some (.check r) ∨ s.notifies q = some (.lock r) → s.table.find q = some p →
    p.ppid = r
  calls_pos : ∀ r c, s.calls r = some c → 0 < r
  due : ∀ r c, s.calls r = some c → c.point = .block → Due s r c
  asleep : ∀ r, s.table.stateOf r = some .blocked → Sleeps s r
  takes : ∀ r c hit, s.calls r = some c → c.takes = some hit → Takes s r hit
  reports : s.reports.Nodup
  reported : ∀ q ∈ s.reports, s.table.find q = none ∧ q < s.nextPid

theorem inv_new : Inv .new := by
  have hfind : ∀ q, new.table.find q = if q = 1 then some ⟨1, 0, 1, .ready, 0, 0, 0⟩ else none := by
    intro q
    by_cases hq : q = 1
    · subst hq
      rfl
    · simp [find, Keyed.find, new, hq, Ne.symm hq]
  refine ⟨Nat.two_pos, nodup_singleton _, fun q p hp => ?_, fun q _ => rfl, fun q r p hn => ?_,
    fun r c hc => ?_, fun r c hc => ?_, fun r hr => ?_, fun r c hit hc => ?_, nodup_nil, fun q hq => ?_⟩
  · rw [hfind] at hp
    split at hp
    · rename_i hq
      subst hq
      exact ⟨Nat.one_pos, Nat.one_lt_two⟩
    · cases hp
  · rcases hn with hn | hn <;> cases hn
  · cases hc
  · cases hc
  · obtain ⟨p, hp, hstate⟩ := exists_find hr
    rw [hfind] at hp
    split at hp
    · cases hp
      cases hstate
    · cases hp
  · cases hc
  · cases hq

namespace Inv
variable {s : State} {caller pid : Nat} {c : Call} {p : Proc} {point : NotifyPoint} {hit : Harvest}

/-! ### Elementary changes -/

section
variable (h : Inv s)
include h

/-- A change to one process that stays the child it is, blocks only in a `wait4`, does not come back from its exit, and has
    still to notify its parent if it exits. -/
theorem modify {f : Proc → Proc} (pid : Nat) (hpid : ∀ p, (f p).pid = p.pid)
    (hppid : ∀ p, (f p).ppid = p.ppid) (hpgid : ∀ p, (f p).pgid = p.pgid)
    (hblocked : ∀ p, s.table.find pid = some p → (f p).state = .blocked → p.state = .blocked ∨ Sleeps s pid)
    (hkeep : ∀ p, s.table.find pid = some p → p.state = .zombie → (f p).state = .zombie)
    (hnew : ∀ p, s.table.find pid = some p → (f p).state = .zombie → p.state = .zombie ∨ s.notifies pid ≠ some .done) :
    Inv { s with table := s.table.modify pid f } := by
  -- What is found afterwards comes from what was found before.
  have hback : ∀ q p', (s.table.modify pid f).find q = some p' →
      ∃ p, s.table.find q = some p ∧ (p' = p ∨ q = pid ∧ p' = f p) := by
    intro q p' hp'
    rw [find_modify hpid] at hp'
    split at hp'
    · rename_i hq
      obtain ⟨p, hp, rfl⟩ := map_eq_some_iff.mp hp'
      exact ⟨p, hq ▸ hp, .inr ⟨hq, rfl⟩⟩
    · exact ⟨p', hp', .inl rfl⟩
  have keep : ∀ {r c}, Due s r c → Due { s with table := s.table.modify pid f } r c := by
    intro r c hc p' hw
    obtain ⟨p, hp, rfl | ⟨hq, rfl⟩⟩ := hback p'.pid p' hw.find
    · exact hc _ { hw with find := hp }
    · rcases hnew p (hq ▸ hp) hw.zombie with hz | hz
      · have hmatch := hw.matching
        rw [hpid] at hp hmatch ⊢
        rw [hpgid] at hmatch
        exact hc p ⟨hp, hppid p ▸ hw.parent, hmatch, hz⟩
      · rw [hq]
        exact hz
  refine ⟨h.pos, ?_, fun q p' hp' => ?_, h.notify_bound, fun q r p' hn hp' => ?_, h.calls_pos,
    fun r c hc hpoint => keep (h.due r c hc hpoint), fun r hr => ?_, fun r c hit hc hhit => ?_, h.reports,
    fun q hq => ⟨?_, (h.reported q hq).2⟩⟩
  · rw [Table.modify, Keyed.map_modify hpid]
    exact h.nodup
  · obtain ⟨p, hp, -⟩ := hback q p' hp'
    exact h.bound q p hp
  · obtain ⟨p, hp, rfl | ⟨-, rfl⟩⟩ := hback q p' hp'
    · exact h.notify_parent q r _ hn hp
    · rw [hppid]
      exact h.notify_parent q r p hn hp
  · have hsleeps : Sleeps s r := by
      obtain ⟨p', hp', hstate⟩ := exists_find hr
      obtain ⟨p, hp, rfl | ⟨rfl, rfl⟩⟩ := hback r p' hp'
      · exact h.asleep r (by rw [stateOf_of_find hp, hstate])
      · rcases hblocked p hp hstate with hb | hb
        · exact h.asleep r (by rw [stateOf_of_find hp, hb])
        · exact hb
    exact hsleeps.keep rfl keep
  · obtain ⟨p, hp, hparent, hz⟩ := h.takes r c hit hc hhit
    by_cases hq : hit.childPid = pid
    · refine ⟨f p, ?_, (hppid p).trans hparent, fun hzombie => hkeep p (hq ▸ hp) (hz hzombie)⟩
      rw [find_modify hpid, if_pos hq, ← hq, hp, map_some]
    · refine ⟨p, ?_, hparent, hz⟩
      rw [find_modify hpid, if_neg hq, hp]
  · have hnone := (h.reported q hq).1
    rw [find_modify hpid]
    split
    · rename_i hqp
      rw [← hqp, hnone, map_none]
    · exact hnone

theorem setCall (hrun : s.table.stateOf caller = some .running) (hdue : c.point = .block → Due s caller c)
    (htakes : ∀ hit, c.takes = some hit → Takes s caller hit) : Inv (s.setCall caller c) := by
  have keep : ∀ {r d}, Due s r d → Due (s.setCall caller c) r d := fun hd p hw =>
    hd p { hw with }
  refine { h with
    calls_pos := fun r d hd => ?_, due := fun r d hd hpoint => ?_, asleep := fun r hr => ?_, takes :=
      fun r d hit hd hhit => ?_ }
  · rw [setCall_calls] at hd
    split at hd
    · rename_i heq
      obtain ⟨p, hp, -⟩ := exists_find hrun
      exact heq ▸ (h.bound caller p hp).1
    · exact h.calls_pos r d hd
  · rw [setCall_calls] at hd
    split at hd
    · rename_i heq
      cases hd
      exact heq ▸ keep (hdue hpoint)
    · exact keep (h.due r d hd hpoint)
  · have hne : r ≠ caller := by
      rintro rfl
      have heq := hrun.symm.trans hr
      cases heq
    exact (h.asleep r hr).keep ((s.setCall_calls caller r c).trans (if_neg hne)) keep
  · rw [setCall_calls] at hd
    split at hd
    · rename_i heq
      cases hd
      exact heq ▸ htakes hit hhit
    · exact h.takes r d hit hd hhit

theorem setNotify (hpid : pid < s.nextPid)
    (hparent : ∀ r p, point = .check r ∨ point = .lock r → s.table.find pid = some p → p.ppid = r)
    (hawake : point = .done → ∀ p, s.table.find pid = some p → s.table.stateOf p.ppid ≠ some .blocked)
    (hclear : point = .done → ∀ p c, s.table.find pid = some p → s.calls p.ppid = some c → c.point = .block →
      matchesPid p.pid p.pgid c.pid = false) :
    Inv (s.setNotify pid point) := by
  have keep : ∀ {r d}, Due s r d →
      (∀ p, point = .done → s.table.find pid = some p → p.ppid = r → matchesPid p.pid p.pgid d.pid → False) →
        Due (s.setNotify pid point) r d := by
    intro r d hd hno p hw
    rw [setNotify_notifies]
    split
    · rename_i hq
      intro heq
      exact hno p (some.inj heq) (hq ▸ hw.find) hw.parent hw.matching
    · exact hd p { hw with }
  refine { h with
    notify_bound := fun q hq => ?_, notify_parent := fun q r p hn hp => ?_,
    due := fun r d hd hpoint => ?_, asleep := fun r hr => ?_ }
  · rw [setNotify_notifies, if_neg (ne_of_gt (lt_of_lt_of_le hpid hq))]
    exact h.notify_bound q hq
  · rw [setNotify_notifies] at hn
    split at hn
    · rename_i hq
      subst hq
      exact hparent r p (by simpa only [some.injEq] using hn) hp
    · exact h.notify_parent q r p hn hp
  · refine keep (h.due r d hd hpoint) fun p hdone hp hr hmatch => ?_
    rw [hclear hdone p d hp (hr ▸ hd) hpoint] at hmatch
    cases hmatch
  · obtain ⟨d, hd, hpoint, hnotify⟩ := h.asleep r hr
    exact ⟨d, hd, hpoint, keep hnotify fun p hdone hp hparent _ => hawake hdone p hp (hparent ▸ hr)⟩

theorem lt_of_notify (hn : s.notifies pid = some point) : pid < s.nextPid := by
  by_contra hlt
  rw [h.notify_bound pid (Nat.le_of_not_lt hlt)] at hn
  cases hn

theorem fork {ppid pgid : Nat} : Inv
    { s with table := s.table ++ [⟨s.nextPid, ppid, pgid, .ready, 0, 0, 0⟩], nextPid := s.nextPid + 1 } := by
  have hfind : ∀ q, find (s.table ++ [⟨s.nextPid, ppid, pgid, .ready, 0, 0, 0⟩]) q =
      (s.table.find q).or (if s.nextPid = q then some ⟨s.nextPid, ppid, pgid, .ready, 0, 0, 0⟩ else none) := fun q =>
    Keyed.find_append_singleton
  have hfresh : s.table.find s.nextPid = none := by
    cases hp : s.table.find s.nextPid with
    | none => rfl
    | some p => exact absurd (h.bound _ p hp).2 (lt_irrefl _)
  have hback : ∀ q p', find (s.table ++ [⟨s.nextPid, ppid, pgid, .ready, 0, 0, 0⟩]) q = some p' →
      s.table.find q = some p' ∨ q = s.nextPid ∧ p'.state = .ready := by
    intro q p' hp'
    rw [hfind, or_eq_some_iff] at hp'
    rcases hp' with hp' | ⟨-, hp'⟩
    · exact .inl hp'
    split at hp'
    · rename_i hq
      cases hp'
      exact .inr ⟨hq.symm, rfl⟩
    · cases hp'
  have keep : ∀ {r d}, Due s r d → Due
      { s with table := s.table ++ [⟨s.nextPid, ppid, pgid, .ready, 0, 0, 0⟩], nextPid := s.nextPid + 1 } r d := by
    intro r d hd p hw
    rcases hback p.pid p hw.find with hp | ⟨-, hready⟩
    · exact hd p { hw with find := hp }
    · rw [hw.zombie] at hready
      cases hready
  refine ⟨Nat.succ_pos _, ?_, fun q p' hp' => ?_, fun q hq => h.notify_bound q (Nat.le_of_succ_le hq),
    fun q r p' hn hp' => ?_, h.calls_pos, fun r d hd hpoint => keep (h.due r d hd hpoint), fun r hr => ?_,
    fun r c hit hc hhit => ?_, h.reports, fun q hq => ⟨?_, ?_⟩⟩
  · rw [map_append, nodup_append]
    refine ⟨h.nodup, nodup_singleton _, fun a ha b hb heq => ?_⟩
    have hlast : a = s.nextPid := heq.trans (mem_singleton.mp hb)
    exact Keyed.find_eq_none_iff.mp hfresh (hlast ▸ ha)
  · rcases hback q p' hp' with hp | ⟨rfl, -⟩
    · exact ⟨(h.bound q p' hp).1, Nat.lt_succ_of_lt (h.bound q p' hp).2⟩
    · exact ⟨h.pos, Nat.lt_succ_self _⟩
  · rcases hback q p' hp' with hp | ⟨rfl, -⟩
    · exact h.notify_parent q r p' hn hp
    · have hnone : s.notifies s.nextPid = none := h.notify_bound _ (le_refl _)
      rcases hn with hn | hn <;> rw [hnone] at hn <;> cases hn
  · obtain ⟨p', hp', hstate⟩ := exists_find hr
    rcases hback r p' hp' with hp | ⟨-, hready⟩
    · have hblocked : s.table.stateOf r = some .blocked := by rw [stateOf_of_find hp, hstate]
      exact (h.asleep r hblocked).keep rfl keep
    · rw [hstate] at hready
      cases hready
  · obtain ⟨p, hp, hdata⟩ := h.takes r c hit hc hhit
    refine ⟨p, ?_, hdata⟩
    rw [hfind, hp, some_or]
  · have hlt := (h.reported q hq).2
    rw [hfind, (h.reported q hq).1, if_neg (ne_of_gt hlt), none_or]
  · exact Nat.lt_succ_of_lt (h.reported q hq).2

theorem remove (hp : s.table.find pid = some p)
    (hfree : ∀ r c hit, s.calls r = some c → c.takes = some hit → hit.childPid ≠ pid) :
    Inv { s with table := s.table.swapRemove pid } := by
  have hfind : ∀ q, (s.table.swapRemove pid).find q = if q = pid then none else s.table.find q := fun q =>
    Keyed.find_swapRemove h.nodup hp
  have hback : ∀ q p', (s.table.swapRemove pid).find q = some p' → s.table.find q = some p' := by
    intro q p' hp'
    rw [hfind] at hp'
    split at hp'
    · cases hp'
    · exact hp'
  have keep : ∀ {r d}, Due s r d → Due { s with table := s.table.swapRemove pid } r d := fun hd p' hw =>
    hd p' { hw with find := hback _ _ hw.find }
  refine ⟨h.pos, Keyed.nodup_swapRemove h.nodup hp, fun q p' hp' => h.bound q p' (hback q p' hp'), h.notify_bound,
    fun q r p' hn hp' => h.notify_parent q r p' hn (hback q p' hp'), h.calls_pos,
    fun r d hd hpoint => keep (h.due r d hd hpoint),
    fun r hr => ?_, fun r c hit hc hhit => ?_, h.reports, fun q hq => ⟨?_, (h.reported q hq).2⟩⟩
  · obtain ⟨p', hp', hstate⟩ := exists_find hr
    have hblocked : s.table.stateOf r = some .blocked := by rw [stateOf_of_find (hback r p' hp'), hstate]
    exact (h.asleep r hblocked).keep rfl keep
  · obtain ⟨p', hp', hdata⟩ := h.takes r c hit hc hhit
    refine ⟨p', ?_, hdata⟩
    rw [hfind, if_neg (hfree r c hit hc hhit), hp']
  · rw [hfind, (h.reported q hq).1, ite_self]

theorem report (hgone : s.table.find pid = none) (hlt : pid < s.nextPid) (hnew : pid ∉ s.reports) :
    Inv { s with reports := s.reports ++ [pid] } := by
  have keep : ∀ {r d}, Due s r d → Due { s with reports := s.reports ++ [pid] } r d := fun hd p hw =>
    hd p { hw with }
  refine { h with
    due := fun r d hd hpoint => keep (h.due r d hd hpoint), asleep := fun r hr => (h.asleep r hr).keep rfl keep,
    reports := ?_, reported := fun q hq => ?_ }
  · rw [nodup_append]
    refine ⟨h.reports, nodup_singleton _, fun a ha b hb heq => hnew ?_⟩
    rw [← mem_singleton.mp hb, ← heq]
    exact ha
  · rcases mem_append.mp hq with hq | hq
    · exact h.reported q hq
    · rw [mem_singleton.mp hq]
      exact ⟨hgone, hlt⟩

theorem wake (pid : Nat) : Inv (s.wake pid) ∧ (s.wake pid).table.stateOf pid ≠ some .blocked := by
  unfold State.wake
  split
  · rename_i hblocked
    obtain ⟨p, hp, hstate⟩ := exists_find hblocked
    refine ⟨h.modify pid (fun _ => rfl) (fun _ => rfl) (fun _ => rfl) (fun _ _ hb => nomatch hb) (fun p' hp' hz => ?_)
      (fun _ _ hz => nomatch hz), ?_⟩
    · rw [hp] at hp'
      cases hp'
      rw [hstate] at hz
      cases hz
    · rw [stateOf, find_setState]
      simp
  · exact ⟨h, ‹_›⟩

/-! ### Steps -/

theorem far (hclear : s.clear (.notifyStep pid)) {r : Nat}
    (hn : s.notifies pid = some (.check r) ∨ s.notifies pid = some (.lock r)) (hp : s.table.find pid = some p)
    (hc : s.calls p.ppid = some c) (hpoint : c.point = .block) : matchesPid p.pid p.pgid c.pid = false := by
  rw [h.notify_parent pid r p hn hp] at hc
  rcases hn with hn | hn
  all_goals simpa [clear, hn, hp, hc, hpoint] using hclear

theorem notifyStep {t : State} (hclear : s.clear (.notifyStep pid)) (hs : s.notifyStep pid = some t) : Inv t := by
  unfold State.notifyStep at hs
  split at hs
  · rename_i hn
    cases hs
    -- It ends here only if there is no parent.
    have hzero : ∀ p, s.table.find pid = some p →
        (if ((s.table.find pid).map (·.ppid)).getD 0 = 0 then NotifyPoint.done
          else .check (((s.table.find pid).map (·.ppid)).getD 0)) = .done → p.ppid = 0 := by
      intro p hp hpoint
      rw [hp, map_some] at hpoint
      split at hpoint
      · assumption
      · cases hpoint
    refine h.setNotify (h.lt_of_notify hn) (fun r p hpoint hp => ?_) (fun hpoint p hp hblocked => ?_)
      (fun hpoint p c hp hc => ?_)
    · rw [hp, map_some] at hpoint
      split at hpoint
      · rcases hpoint with hpoint | hpoint <;> cases hpoint
      · rcases hpoint with hpoint | hpoint <;> cases hpoint
        rfl
    · obtain ⟨parent, hparent, -⟩ := exists_find hblocked
      exact absurd (hzero p hp hpoint) (ne_of_gt (h.bound _ parent hparent).1)
    · exact absurd (hzero p hp hpoint) (ne_of_gt (h.calls_pos _ c hc))
  · rename_i r hn
    cases hs
    have hppid : ∀ p, s.table.find pid = some p → p.ppid = r := fun p hp => h.notify_parent pid r p (.inl hn) hp
    refine h.setNotify (h.lt_of_notify hn) (fun r' p hpoint hp => ?_) (fun hpoint p hp => ?_)
      (fun _ p c hp hc => h.far hclear (.inl hn) hp hc)
    · split at hpoint
      · rcases hpoint with hpoint | hpoint <;> cases hpoint
        exact hppid p hp
      · rcases hpoint with hpoint | hpoint <;> cases hpoint
    · split at hpoint
      · cases hpoint
      · rename_i hawake
        rw [hppid p hp]
        exact hawake
  · rename_i r hn
    cases hs
    obtain ⟨hinv, hawake⟩ := h.wake r
    have hnotify : (s.wake r).notifies pid = some (.lock r) := by rw [wake_notifies, hn]
    refine hinv.setNotify (hinv.lt_of_notify hnotify) (fun r' p hpoint hp => ?_) (fun _ p hp => ?_)
      (fun _ p c hp hc hpoint => ?_)
    · rcases hpoint with hpoint | hpoint <;> cases hpoint
    · rw [hinv.notify_parent pid r p (.inr hnotify) hp]
      exact hawake
    · obtain ⟨state, hp'⟩ := find_of_wake hp
      rw [wake_calls] at hc
      have hfar := h.far hclear (.inr hn) hp' hc hpoint
      exact hfar
  · cases hs

theorem exit {code : Int32} (halive : s.table.alive pid) : Inv (s.exit pid code) := by
  obtain ⟨p, hp, -⟩ := exists_alive halive
  have hnotify : Inv (s.setNotify pid .readParent) := by
    refine h.setNotify (h.bound pid p hp).2 (fun r p' hpoint => ?_) (fun hpoint => (nomatch hpoint))
      (fun hpoint => (nomatch hpoint))
    rcases hpoint with hpoint | hpoint <;> cases hpoint
  refine hnotify.modify pid (f := fun p => { p with exitCode := encodeExit code, state := .zombie })
    (fun _ => rfl) (fun _ => rfl) (fun _ => rfl) (fun _ _ hb => nomatch hb) (fun _ _ _ => rfl) (fun _ _ _ => .inr ?_)
  rw [setNotify_notifies]
  simp

theorem changeLive {f : Proc → Proc} (halive : s.table.alive pid) (hpid : ∀ p, (f p).pid = p.pid)
    (hppid : ∀ p, (f p).ppid = p.ppid) (hpgid : ∀ p, (f p).pgid = p.pgid) (hblocked : ∀ p, (f p).state ≠ .blocked)
    (hzombie : ∀ p, (f p).state ≠ .zombie) : Inv { s with table := s.table.modify pid f } := by
  obtain ⟨p, hp, hlive⟩ := exists_alive halive
  refine h.modify pid hpid hppid hpgid (fun p' _ hb => absurd hb (hblocked p')) (fun p' hp' hz => ?_)
    (fun p' _ hz => absurd hz (hzombie p'))
  rw [hp] at hp'
  cases hp'
  exact absurd hz hlive

section
variable (hrun : s.table.stateOf caller = some .running)
include hrun

theorem goOn {point : WaitPoint} (hblock : point ≠ .block)
    (htakes : ({ c with point := point } : Call).takes = none) : Inv (s.setCall caller { c with point := point }) :=
  h.setCall hrun (fun hpoint => absurd hpoint hblock) fun hit hhit => by
    rw [htakes] at hhit
    cases hhit

theorem finish (hkept : c.options &&& WNOWAIT = 0 → hit.zombie = false) : Inv (s.finish caller c hit) := by
  unfold State.finish
  split
  · rename_i hreport
    rw [hkept hreport.1] at hreport
    exact absurd hreport.2 Bool.false_ne_true
  · exact h.goOn hrun (by simp) rfl

theorem finish_remove (htakes : Takes s caller hit) :
    Inv ({ s with table := s.table.swapRemove hit.childPid }.finish caller c hit) := by
  obtain ⟨p, hp, hparent, -⟩ := htakes
  have hdone : Inv (s.setCall caller { c with point := .done hit.childPid }) := h.goOn hrun (by simp) rfl
  have hremoved := hdone.remove hp fun r d hit' hd hhit' heq => by
    rw [setCall_calls] at hd
    split at hd
    · cases hd
      cases hhit'
    rename_i hne
    obtain ⟨p', hp', hparent', -⟩ := h.takes r d hit' hd hhit'
    rw [heq, hp] at hp'
    cases hp'
    exact hne (hparent'.symm.trans hparent)
  unfold State.finish
  split
  · refine hremoved.report ?_ (h.bound _ p hp).2 fun hmem => ?_
    · exact (Keyed.find_swapRemove h.nodup hp).trans (if_pos rfl)
    · rw [(h.reported _ hmem).1] at hp
      cases hp
  · exact hremoved

theorem block (hc : s.calls caller = some c) (hpoint : c.point = .block) :
    Inv ({ s with table := s.table.setState caller .blocked }.setCall caller { c with point := .asleep }) := by
  have hasleep : Inv (s.setCall caller { c with point := .asleep }) := h.goOn hrun (by simp) rfl
  refine hasleep.modify caller (f := fun p => { p with state := .blocked }) (fun _ => rfl) (fun _ => rfl) (fun _ => rfl)
    (fun p _ _ => .inr ⟨{ c with point := .asleep }, ?_, rfl, fun p hw => ?_⟩) (fun p hp hz => ?_)
    (fun _ _ hz => nomatch hz)
  · rw [setCall_calls, if_pos rfl]
  · exact h.due caller c hc hpoint p { hw with }
  · have heq := hrun.symm.trans (stateOf_of_find hp)
    rw [hz] at heq
    cases heq

theorem scan {t : State}
    (hs : (match Wait.scan caller c.pid c.options false s.table with
      | .harvested hit =>
        if c.options &&& WNOWAIT = 0 then some (s.setCall caller { c with point := .report hit })
        else some (s.finish caller c hit)
      | .hasLiving =>
        some (s.setCall caller { c with point := if c.options &&& WNOHANG ≠ 0 then .done 0 else .block })
      | .noChild => some (s.setCall caller { c with point := .done ECHILD })) = some t) : Inv t := by
  split at hs
  · rename_i hit hscan
    obtain ⟨p, hp, hpid, hdata⟩ := scan_harvested hscan
    split at hs
    · cases hs
      refine h.setCall hrun (fun hpoint => (nomatch hpoint)) fun hit' hhit' => ?_
      cases hhit'
      exact ⟨p, (Keyed.find_eq_some_iff h.nodup).mpr ⟨hp, hpid⟩, hdata⟩
    · rename_i hwait
      cases hs
      exact h.finish hrun fun hnowait => absurd hnowait hwait
  · rename_i hscan
    cases hs
    split
    · exact h.goOn hrun (by simp) rfl
    · refine h.setCall hrun (fun _ p hw => ?_) (fun hit hhit => (nomatch hhit))
      have hmem := ((Keyed.find_eq_some_iff h.nodup).mp hw.find).1
      exact absurd hw.zombie (scan_hasLiving hscan p hmem hw.parent hw.matching)
  · cases hs
    exact h.goOn hrun (by simp) rfl

end

theorem waitStep {pending : Bool} {t : State} (hs : s.waitStep caller pending = some t) : Inv t := by
  unfold State.waitStep at hs
  split at hs
  · rename_i c hc hrun
    split at hs
    · exact h.scan hrun hs
    · rename_i hit hpoint
      cases hs
      have hcheck : Inv (s.setCall caller { c with point := .check hit }) := by
        refine h.setCall hrun (fun hpoint => (nomatch hpoint)) fun hit' hhit' => ?_
        cases hhit'
        exact h.takes caller c hit hc (by rw [Call.takes, hpoint])
      exact hcheck.modify hit.childPid Proc.report_pid Proc.report_ppid Proc.report_pgid
        (fun p _ hb => .inl (p.report_blocked.mp hb)) (fun p _ hz => p.report_zombie.mpr hz)
        (fun p _ hz => .inl (p.report_zombie.mp hz))
    · rename_i hit hpoint
      have htakes := h.takes caller c hit hc (by rw [Call.takes, hpoint])
      split at hs
      · cases hs
        refine h.setCall hrun (fun hpoint => (nomatch hpoint)) fun hit' hhit' => ?_
        cases hhit'
        exact htakes
      · rename_i hlive
        cases hs
        obtain ⟨p, hp, -, hz⟩ := htakes
        refine h.finish hrun fun _ => Bool.eq_false_iff.mpr fun hzombie => hlive ?_
        rw [stateOf_of_find hp, hz hzombie]
    · rename_i hit hpoint
      cases hs
      exact h.finish_remove hrun (h.takes caller c hit hc (by rw [Call.takes, hpoint]))
    · rename_i hpoint
      cases hs
      exact h.block hrun hc hpoint
    · cases hs
      split
      · exact h.goOn hrun (by simp) rfl
      · exact h.goOn hrun (by simp) rfl
    · cases hs
  · cases hs

theorem step {e : Event} {t : State} (hclear : s.clear e) (hs : s.step e = some t) : Inv t := by
  cases e with
  | fork ppid pgid =>
    cases hs
    exact h.fork
  | run pid =>
    rw [State.step] at hs
    split at hs
    · rename_i hready
      cases hs
      refine h.changeLive ?_ (fun _ => rfl) (fun _ => rfl) (fun _ => rfl) (fun _ => by simp) (fun _ => by simp)
      simp [alive, hready]
    · cases hs
  | exit pid code =>
    rw [State.step] at hs
    split at hs
    · rename_i halive
      cases hs
      exact h.exit halive
    · cases hs
  | stop pid stopsig | cont pid =>
    rw [State.step] at hs
    split at hs
    · rename_i halive
      cases hs
      exact h.changeLive halive (fun _ => rfl) (fun _ => rfl) (fun _ => rfl) (fun _ => by simp) (fun _ => by simp)
    · cases hs
  | wait4 caller pid options =>
    rw [State.step] at hs
    split at hs
    · rename_i hrun
      cases hs
      exact h.goOn (c := ⟨pid, options, .scan⟩) hrun.1 (by simp) rfl
    · cases hs
  | waitStep caller pending => exact h.waitStep hs
  | notifyStep pid => exact h.notifyStep hclear hs
  | wake pid =>
    cases hs
    exact (h.wake pid).1

end

end Inv

/-- No process is blocked inside a `wait4` while a child for which it waits is a zombie that has notified it, and no zombie
    has been reported twice by calls without `WNOWAIT`. -/
structure NeverSleepsPast (s : State) : Prop where
  woken : ∀ caller c p, s.calls caller = some c → c.finished = false → s.table.stateOf caller = some .blocked → p ∈ s.table →
    p.ppid = caller → matchesPid p.pid p.pgid c.pid = true → p.state = .zombie → s.notifies p.pid ≠ some .done
  once : s.reports.Nodup

/-- If no `notify_exit` looks at a parent between the scan and the sleep of a `wait4` that waits for the child, then no
    `wait4` sleeps past an exit. -/
theorem wait4_never_sleeps_past (s : State)
    (h : Reach (fun s e t => State.step s e = some t) (fun s e => State.clear s e = true) State.new s) :
    NeverSleepsPast s := by
  have hinv : Inv s := h.invariant inv_new fun u e v hu hok hs => hu.step hok hs
  refine ⟨fun caller c p hc _ hblocked hp hparent hmatch hzombie => ?_, hinv.reports⟩
  obtain ⟨d, hd, -, hdue⟩ := hinv.asleep caller hblocked
  rw [hc] at hd
  cases hd
  exact hdue p ⟨(Keyed.find_eq_some_iff hinv.nodup).mpr ⟨hp, rfl⟩, hparent, hmatch, hzombie⟩

/-- A parent sleeps in `wait4`, its child exits and wakes it, and it takes the child. -/
theorem wait4_never_sleeps_past_one : ∃ s, Reach.run State.step State.clear .new
    [.run 1, .fork 1 1, .wait4 1 (-1) 0, .waitStep 1 false, .waitStep 1 false, .exit 2 7, .notifyStep 2, .notifyStep 2,
      .notifyStep 2, .run 1, .waitStep 1 false, .waitStep 1 false, .waitStep 1 false, .waitStep 1 false,
      .waitStep 1 false] = some s ∧
    s.calls 1 = some ⟨-1, 0, .done 2⟩ ∧ s.reports = [2] ∧ s.table.find 2 = none ∧ NeverSleepsPast s := by
  exact Reach.exists_run_and (A := fun s => s.calls 1 = some ⟨-1, 0, .done 2⟩ ∧ s.reports = [2] ∧ s.table.find 2 = none)
    (by decide +kernel) fun s hs ⟨hcall, hreports, hfind⟩ => ⟨hcall, hreports, hfind, wait4_never_sleeps_past s hs⟩

/-- The child exits between the scan and the sleep of its parent's `wait4`. Its `notify_exit` finds the parent running and
    ends, and then the parent blocks. -/
theorem exit_before_block_missed : ∃ s, Reach.run State.step (fun _ _ => true) .new
    [.run 1, .fork 1 1, .wait4 1 (-1) 0, .waitStep 1 false, .exit 2 7, .notifyStep 2, .notifyStep 2, .waitStep 1 false] =
      some s ∧
    s.calls 1 = some ⟨-1, 0, .asleep⟩ ∧ s.table.stateOf 1 = some .blocked ∧
    s.table.find 2 = some ⟨2, 1, 1, .zombie, encodeExit 7, 0, 0⟩ ∧ s.notifies 2 = some .done := by
  exact Reach.exists_run (by decide +kernel)

end Moxide.Wait
