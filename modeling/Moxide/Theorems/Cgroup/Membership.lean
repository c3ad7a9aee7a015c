import Moxide.Cgroup
import Moxide.Lib.Reach

/-! Membership in control groups. What the proofs read of a group is its list, its counter and its limit (`Roll`). -/

namespace Moxide.Cgroup
open Lib List Option State
open Function (update update_of_ne update_self)
open SortedMap (mem_of_get get_remove get_insert get_modify)

/-! ### Runs -/

/-- `forked` are the processes that have been forked and not exited, `lowered` the groups whose limit was last set below the
    number of their processes. -/
structure System where
  code : State
  forked : Pid → Bool
  lowered : CgroupId → Bool

def System.Live (s : System) (p : Pid) (c : CgroupId) : Prop := SortedMap.get s.code.procs p = some c ∧ s.forked p = true

inductive Event where
  | create (parent : CgroupId) (name : String)
  | remove (id : CgroupId)
  | fork (parent child : Pid)
  | move (pid : Pid) (target : CgroupId)
  | exit (pid : Pid)
  | setPidsMax (id : CgroupId) (v : Nat)

namespace System

def init (pids : List Pid) : System := ⟨State.new pids, fun _ => false, fun _ => false⟩

def addProc (s : State) (pid : Pid) : State := { s with procs := SortedMap.insert pid ROOT_CGROUP s.procs }

def dropProc (s : State) (pid : Pid) : State := { s with procs := SortedMap.remove s.procs pid }

def step (s : System) : Event → Option System
  | .create parent name =>
    match s.code.createCgroup parent name with
    | (t, .ok id) => some { s with code := t, lowered := update s.lowered id false }
    | (t, .error _) => some { s with code := t }
  | .remove id => some { s with code := (s.code.removeCgroup id).1 }
  | .fork parent child =>
    some { s with code := (addProc s.code child).cgroupFork parent child, forked := update s.forked child true }
  | .move pid target => some { s with code := (s.code.movePid pid target).1 }
  | .exit pid =>
    some { s with code := dropProc (s.code.cgroupExit pid) pid, forked := update s.forked pid false }
  | .setPidsMax id v =>
    some { s with code := (s.code.writePidsMax id v).1,
                  lowered := update s.lowered id ((s.code.node id).any fun n => v < n.nrPids) }

def room (s : State) (id : CgroupId) : Bool := (s.node id).any fun n => n.nrPids < n.pidsMax && n.nrPids + 1 < 2 ^ 32

/-- The next id is not in use; a forked process is new, its parent's group has room, and it is in no list but perhaps the
    root group's; a process is moved only to a group that does not exist, to the one it is in, or if it is neither live nor
    in a list (and the group is full or has room in its counter). -/
def ok (s : System) : Event → Bool
  | .create _ _ => (s.code.node s.code.nextCgid).isNone
  | .remove _ => true
  | .fork parent child =>
    parent ≠ child && (SortedMap.get s.code.procs child).isNone && room s.code (s.code.cgroupOf parent) &&
      s.code.nodes.all fun q => child ∉ q.2.pids || q.1 == s.code.cgroupOf parent && q.1 == ROOT_CGROUP
  | .move pid target =>
    (s.code.node target).isNone || s.code.findPidCgroup pid == some target ||
      ((SortedMap.get s.code.procs pid).isNone || !s.forked pid) && (s.code.findPidCgroup pid).isNone &&
        (room s.code target || (s.code.node target).any fun n => n.pidsMax ≤ n.nrPids)
  | .exit _ => true
  | .setPidsMax _ _ => true

end System

/-- Every live forked process is in the list of the group of its `Pcb` and in no other list, and every counter is the length
    of its list and within its limit, if that was not set lower. -/
structure Consistent (s : System) : Prop where
  member : ∀ p c, s.Live p c → ∃ n, s.code.node c = some n ∧ p ∈ n.pids
  only : ∀ p c, s.Live p c → ∀ id n, s.code.node id = some n → p ∈ n.pids → id = c
  count : ∀ id n, s.code.node id = some n → n.nrPids = n.pids.length
  max : ∀ id n, s.code.node id = some n → s.lowered id = false → n.nrPids ≤ n.pidsMax

/-! ### Rolls -/

structure Roll where
  pids : List Pid
  nr : Nat
  max : Nat

def CgroupNode.roll (n : CgroupNode) : Roll := ⟨n.pids, n.nrPids, n.pidsMax⟩

def State.roll (s : State) (id : CgroupId) : Option Roll := (s.node id).map (·.roll)

def Roll.enter (r : Roll) (pid : Pid) : Roll := ⟨r.pids ++ [pid], (r.nr + 1) % 2 ^ 32, r.max⟩

def Roll.leave (r : Roll) (pid : Pid) : Roll := ⟨r.pids.filter (· ≠ pid), r.nr - 1, r.max⟩

variable {s : State} {id x y parent : CgroupId} {pid : Pid} {f : CgroupNode → CgroupNode} {name : String} {r : Roll}
  {target : CgroupId}

variable {t : System}

theorem roll_update {g : Roll → Roll} (h : ∀ n, (f n).roll = g n.roll) :
    (s.update id f).roll x = if x = id then (s.roll x).map g else s.roll x := by
  simp only [State.roll, State.node, State.update, get_modify]
  split_ifs
  · rw [Option.map_map, Option.map_map]
    congr 1
    funext n
    exact h n
  · rfl

theorem roll_update_same (h : ∀ n, (f n).roll = n.roll) : (s.update id f).roll x = s.roll x := by
  rw [roll_update (g := fun r => r) h]
  split_ifs
  · exact Option.map_id' ..
  · rfl

theorem roll_free : (s.free id parent).roll x = if x = id then none else s.roll x := by
  refine (roll_update_same (by intro n; rfl)).trans ?_
  simp only [roll, node, get_remove]
  split_ifs <;> rfl

theorem roll_insert :
    ({ s with nextCgid := x, nodes := SortedMap.insert id { parent := parent, name := name } s.nodes } : State).roll y =
      if y = id then some ⟨[], 0, U64_MAX⟩ else s.roll y := by
  simp only [roll, node, get_insert]
  split_ifs <;> rfl

theorem not_listed (h : s.findPidCgroup pid = none) (hr : s.roll id = some r) : pid ∉ r.pids := by
  obtain ⟨n, hn, rfl⟩ := map_eq_some_iff.mp hr
  rw [findPidCgroup, map_eq_none_iff, find?_eq_none] at h
  have hnot := h _ (mem_of_get hn)
  rw [decide_eq_true_eq] at hnot
  exact hnot

theorem room_iff : System.room s id ↔ ∃ r, s.roll id = some r ∧ r.nr < r.max ∧ r.nr + 1 < 2 ^ 32 := by
  rw [System.room, roll]
  cases s.node id with
  | none => simp
  | some n => simp [CgroupNode.roll]

/-! ### The invariant -/

/-- Outside of the root group no process is twice in a list, and a process that was not forked is in the root group. -/
structure Inv (s : System) : Prop where
  member : ∀ p c, s.Live p c → ∃ r, s.code.roll c = some r ∧ p ∈ r.pids
  only : ∀ p c, s.Live p c → ∀ id r, s.code.roll id = some r → p ∈ r.pids → id = c
  count : ∀ id r, s.code.roll id = some r → r.nr = r.pids.length
  max : ∀ id r, s.code.roll id = some r → s.lowered id = false → r.nr ≤ r.max
  nodup : ∀ id r, id ≠ ROOT_CGROUP → s.code.roll id = some r → r.pids.Nodup
  unforked : ∀ p c, SortedMap.get s.code.procs p = some c → s.forked p = false → c = ROOT_CGROUP

theorem Inv.consistent {s : System} (h : Inv s) : Consistent s := by
  refine ⟨?_, ?_, ?_, ?_⟩
  · intro p c hl
    obtain ⟨r, hr, hp⟩ := h.member p c hl
    obtain ⟨n, hn, rfl⟩ := map_eq_some_iff.mp hr
    exact ⟨n, hn, hp⟩
  · intro p c hl id n hn hp
    exact h.only p c hl id n.roll (by rw [roll, hn, map_some]) hp
  · intro id n hn
    exact h.count id n.roll (by rw [roll, hn, map_some])
  · intro id n hn hlow
    exact h.max id n.roll (by rw [roll, hn, map_some]) hlow

theorem live_congr {s : System} {p : Pid} {c : CgroupId} (hprocs : t.code.procs = s.code.procs)
    (hforked : t.forked = s.forked) : t.Live p c ↔ s.Live p c := by
  rw [System.Live, hprocs, hforked, ← System.Live]

theorem Inv.same {s : System} (h : Inv s) (hroll : ∀ x, t.code.roll x = s.code.roll x)
    (hprocs : t.code.procs = s.code.procs) (hforked : t.forked = s.forked) (hlow : t.lowered = s.lowered) : Inv t := by
  refine ⟨?_, ?_, ?_, ?_, ?_, ?_⟩
  · intro p c hl
    rw [hroll]
    exact h.member p c ((live_congr hprocs hforked).mp hl)
  · intro p c hl id r hr
    exact h.only p c ((live_congr hprocs hforked).mp hl) id r (hroll id ▸ hr)
  · intro id r hr
    exact h.count id r (hroll id ▸ hr)
  · intro id r hr hl
    exact h.max id r (hroll id ▸ hr) (hlow ▸ hl)
  · intro id r hid hr
    exact h.nodup id r hid (hroll id ▸ hr)
  · intro p c hp hf
    exact h.unforked p c (hprocs ▸ hp) (hforked ▸ hf)

/-- A process enters a list: one that was in none (or only in the root group's, which it enters), and that is not live
    elsewhere. -/
theorem Inv.enter {s : System} (h : Inv s) (pid : Pid) (hr : s.code.roll id = some r)
    (hroom : r.nr < r.max) (hwrap : r.nr + 1 < 2 ^ 32)
    (hroll : ∀ x, t.code.roll x = if x = id then (s.code.roll x).map (·.enter pid) else s.code.roll x)
    (hlisted : ∀ x r', s.code.roll x = some r' → pid ∈ r'.pids → x = id ∧ x = ROOT_CGROUP)
    (hlive : ∀ p c, t.Live p c → p ≠ pid ∧ s.Live p c ∨ p = pid ∧ c = id) (hlow : t.lowered = s.lowered)
    (hunforked : ∀ p c, SortedMap.get t.code.procs p = some c → t.forked p = false → c = ROOT_CGROUP) : Inv t := by
  have hat : t.code.roll id = some (r.enter pid) := by rw [hroll, if_pos rfl, hr, map_some]
  have hother {x : CgroupId} (hx : x ≠ id) : t.code.roll x = s.code.roll x := by rw [hroll, if_neg hx]
  have hnr : (r.enter pid).nr = r.nr + 1 := Nat.mod_eq_of_lt hwrap
  refine ⟨?_, ?_, ?_, ?_, ?_, hunforked⟩
  · intro p c hl
    rcases hlive p c hl with ⟨-, hl⟩ | ⟨rfl, rfl⟩
    · obtain ⟨r', hr', hp⟩ := h.member p c hl
      by_cases hc : c = id
      · subst hc
        rw [hr] at hr'
        cases hr'
        exact ⟨_, hat, mem_append_left _ hp⟩
      · exact ⟨r', by rw [hother hc, hr'], hp⟩
    · exact ⟨_, hat, mem_append_right _ mem_cons_self⟩
  · intro p c hl x r' hr' hp
    by_cases hx : x = id
    · subst hx
      rcases hlive p c hl with ⟨hne, hl⟩ | ⟨-, rfl⟩
      · rw [hat] at hr'
        cases hr'
        rcases mem_append.mp hp with hp | hp
        · exact h.only p c hl x r hr hp
        · exact absurd (mem_singleton.mp hp) hne
      · rfl
    · rw [hother hx] at hr'
      rcases hlive p c hl with ⟨-, hl⟩ | ⟨rfl, -⟩
      · exact h.only p c hl x r' hr' hp
      · exact absurd (hlisted x r' hr' hp).1 hx
  · intro x r' hr'
    by_cases hx : x = id
    · rw [hx, hat] at hr'
      cases hr'
      rw [hnr, h.count id r hr]
      simp [Roll.enter]
    · exact h.count x r' (hother hx ▸ hr')
  · intro x r' hr' hl
    by_cases hx : x = id
    · rw [hx, hat] at hr'
      cases hr'
      rw [hnr]
      exact hroom
    · exact h.max x r' (hother hx ▸ hr') (hlow ▸ hl)
  · intro x r' hroot hr'
    by_cases hx : x = id
    · rw [hx, hat] at hr'
      cases hr'
      rw [Roll.enter, ← concat_eq_append]
      refine (h.nodup id r (hx ▸ hroot) hr).concat fun hp => ?_
      exact (hx ▸ hroot) (hlisted id r hr hp).2
    · exact h.nodup x r' hroot (hother hx ▸ hr')

section
variable {s : System} (h : Inv s)
include h

theorem Inv.replace {o : Option Roll} (ho : ∀ r ∈ o, r = ⟨[], 0, U64_MAX⟩)
    (hold : ∀ r, s.code.roll id = some r → r.pids = []) (hroll : ∀ x, t.code.roll x = if x = id then o else s.code.roll x)
    (hprocs : t.code.procs = s.code.procs) (hforked : t.forked = s.forked) (hlow : ∀ x ≠ id, t.lowered x = s.lowered x) :
    Inv t := by
  have hcases {x : CgroupId} {r' : Roll} (hr' : t.code.roll x = some r') :
      r' = ⟨[], 0, U64_MAX⟩ ∨ x ≠ id ∧ s.code.roll x = some r' := by
    rw [hroll] at hr'
    split_ifs at hr' with hx
    · exact .inl (ho r' hr')
    · exact .inr ⟨hx, hr'⟩
  refine ⟨?_, ?_, ?_, ?_, ?_, ?_⟩
  · intro p c hl
    obtain ⟨r', hr', hp⟩ := h.member p c ((live_congr hprocs hforked).mp hl)
    have hc : c ≠ id := by
      rintro rfl
      rw [hold r' hr'] at hp
      cases hp
    exact ⟨r', by rw [hroll, if_neg hc, hr'], hp⟩
  · intro p c hl x r' hr' hp
    rcases hcases hr' with rfl | ⟨-, hr'⟩
    · cases hp
    · exact h.only p c ((live_congr hprocs hforked).mp hl) x r' hr' hp
  · intro x r' hr'
    rcases hcases hr' with rfl | ⟨-, hr'⟩
    · rfl
    · exact h.count x r' hr'
  · intro x r' hr' hl
    rcases hcases hr' with rfl | ⟨hx, hr'⟩
    · exact Nat.zero_le _
    · exact h.max x r' hr' (hlow x hx ▸ hl)
  · intro x r' hx hr'
    rcases hcases hr' with rfl | ⟨-, hr'⟩
    · exact nodup_nil
    · exact h.nodup x r' hx hr'
  · intro p c hp hf
    exact h.unforked p c (hprocs ▸ hp) (hforked ▸ hf)

theorem Inv.free (hr : s.code.roll id = some r) (hempty : r.pids = [])
    (hroll : ∀ x, t.code.roll x = if x = id then none else s.code.roll x) (hprocs : t.code.procs = s.code.procs)
    (hforked : t.forked = s.forked) (hlow : t.lowered = s.lowered) : Inv t := by
  refine h.replace (by simp) (fun r' hr' => ?_) hroll hprocs hforked fun x _ => congrFun hlow x
  exact some.inj (hr.symm.trans hr') ▸ hempty

theorem Inv.limit (id : CgroupId) (v : Nat)
    (hroll : ∀ x, t.code.roll x = if x = id then (s.code.roll x).map fun r => { r with max := v } else s.code.roll x)
    (hprocs : t.code.procs = s.code.procs) (hforked : t.forked = s.forked)
    (hlow : t.lowered = update s.lowered id ((s.code.roll id).any fun r => v < r.nr)) : Inv t := by
  -- a roll after the step is one from before, up to the limit
  have hback {x : CgroupId} {r' : Roll} (hr' : t.code.roll x = some r') :
      ∃ r, s.code.roll x = some r ∧ r'.pids = r.pids ∧ r'.nr = r.nr ∧ (x = id → r'.max = v) ∧ (x ≠ id → r'.max = r.max) := by
    rw [hroll] at hr'
    split_ifs at hr' with hx
    · obtain ⟨r, hr, rfl⟩ := map_eq_some_iff.mp hr'
      exact ⟨r, hr, rfl, rfl, fun _ => rfl, fun hne => absurd hx hne⟩
    · exact ⟨r', hr', rfl, rfl, fun he => absurd he hx, fun _ => rfl⟩
  refine ⟨?_, ?_, ?_, ?_, ?_, ?_⟩
  · intro p c hl
    obtain ⟨r', hr', hp⟩ := h.member p c ((live_congr hprocs hforked).mp hl)
    rw [hroll, hr']
    split_ifs
    · exact ⟨_, rfl, hp⟩
    · exact ⟨_, rfl, hp⟩
  · intro p c hl x r' hr' hp
    obtain ⟨r, hr, hpids, -⟩ := hback hr'
    exact h.only p c ((live_congr hprocs hforked).mp hl) x r hr (hpids ▸ hp)
  · intro x r' hr'
    obtain ⟨r, hr, hpids, hnr, -⟩ := hback hr'
    rw [hpids, hnr]
    exact h.count x r hr
  · intro x r' hr' hl
    obtain ⟨r, hr, -, hnr, hmax, hmax'⟩ := hback hr'
    rw [hlow] at hl
    by_cases hx : x = id
    · subst hx
      rw [update_self, hr, any_some, decide_eq_false_iff_not, not_lt] at hl
      rw [hnr, hmax rfl]
      exact hl
    · rw [update_of_ne hx] at hl
      rw [hnr, hmax' hx]
      exact h.max x r hr hl
  · intro x r' hx hr'
    obtain ⟨r, hr, hpids, -⟩ := hback hr'
    rw [hpids]
    exact h.nodup x r hx hr
  · intro p c hp hf
    exact h.unforked p c (hprocs ▸ hp) (hforked ▸ hf)

theorem Inv.leave (pid : Pid)
    (hroll : ∀ x, t.code.roll x = if x = s.code.cgroupOf pid ∧ x ≠ ROOT_CGROUP then (s.code.roll x).map (·.leave pid)
      else s.code.roll x)
    (hprocs : t.code.procs = SortedMap.remove s.code.procs pid) (hforked : t.forked = update s.forked pid false)
    (hlow : t.lowered = s.lowered) : Inv t := by
  have hlive {p : Pid} {c : CgroupId} (hl : t.Live p c) : p ≠ pid ∧ s.Live p c := by
    obtain ⟨hp, hf⟩ := hl
    have hne : p ≠ pid := by
      rintro rfl
      rw [hforked, update_self] at hf
      cases hf
    rw [hprocs, get_remove, if_neg hne] at hp
    rw [hforked, update_of_ne hne] at hf
    exact ⟨hne, hp, hf⟩
  -- the roll that changes is that of a live process, which is in it once
  have honce {x : CgroupId} {r : Roll} (hx : x = s.code.cgroupOf pid ∧ x ≠ ROOT_CGROUP) (hr : s.code.roll x = some r) :
      pid ∈ r.pids ∧ r.pids.Nodup := by
    obtain ⟨hc, hroot⟩ := hx
    have hget : SortedMap.get s.code.procs pid = some x := by
      rw [cgroupOf] at hc
      cases hp : SortedMap.get s.code.procs pid with
      | none =>
        rw [hp] at hc
        exact absurd hc hroot
      | some c =>
        rw [hp] at hc
        rw [hc]
        rfl
    have hf : s.forked pid := by
      by_contra hnot
      exact hroot (h.unforked pid x hget (Bool.eq_false_iff.mpr hnot))
    obtain ⟨r', hr', hp⟩ := h.member pid x ⟨hget, hf⟩
    rw [hr] at hr'
    cases hr'
    exact ⟨hp, h.nodup x r hroot hr⟩
  have hback {x : CgroupId} {r' : Roll} (hr' : t.code.roll x = some r') :
      s.code.roll x = some r' ∨ ∃ r, s.code.roll x = some r ∧ r' = r.leave pid ∧ pid ∈ r.pids ∧ r.pids.Nodup := by
    rw [hroll] at hr'
    split_ifs at hr' with hx
    · obtain ⟨r, hr, rfl⟩ := map_eq_some_iff.mp hr'
      exact .inr ⟨r, hr, rfl, honce hx hr⟩
    · exact .inl hr'
  refine ⟨?_, ?_, ?_, ?_, ?_, ?_⟩
  · intro p c hl
    obtain ⟨hne, hl⟩ := hlive hl
    obtain ⟨r, hr, hp⟩ := h.member p c hl
    rw [hroll, hr]
    split_ifs
    · exact ⟨_, rfl, mem_filter.mpr ⟨hp, decide_eq_true hne⟩⟩
    · exact ⟨_, rfl, hp⟩
  · intro p c hl x r' hr' hp
    rcases hback hr' with hr | ⟨r, hr, rfl, -⟩
    · exact h.only p c (hlive hl).2 x r' hr hp
    · exact h.only p c (hlive hl).2 x r hr (mem_filter.mp hp).1
  · intro x r' hr'
    rcases hback hr' with hr | ⟨r, hr, rfl, hp, hn⟩
    · exact h.count x r' hr
    have hlen : (r.pids.filter (· ≠ pid)).length = r.pids.length - 1 := by
      rw [← length_erase_of_mem hp, hn.erase_eq_filter]
      congr 1
      refine filter_congr fun a _ => ?_
      by_cases ha : a = pid <;> simp [ha]
    change r.nr - 1 = (r.pids.filter (· ≠ pid)).length
    rw [hlen, h.count x r hr]
  · intro x r' hr' hl
    rcases hback hr' with hr | ⟨r, hr, rfl, -⟩
    · exact h.max x r' hr (hlow ▸ hl)
    · exact (Nat.sub_le _ _).trans (h.max x r hr (hlow ▸ hl))
  · intro x r' hx hr'
    rcases hback hr' with hr | ⟨r, hr, rfl, -, hn⟩
    · exact h.nodup x r' hx hr
    · exact hn.filter _
  · intro p c hp hf
    rw [hprocs, get_remove] at hp
    split_ifs at hp with hne
    rw [hforked, update_of_ne hne] at hf
    exact h.unforked p c hp hf

end

/-! ### Steps -/

theorem inv_init (pids : List Pid) : Inv (System.init pids) := by
  have hroll {x : CgroupId} {r : Roll} (h : (System.init pids).code.roll x = some r) : r = ⟨[], 0, U64_MAX⟩ := by
    obtain ⟨n, hn, rfl⟩ := map_eq_some_iff.mp h
    have hmem := mem_of_get hn
    rw [show (System.init pids).code.nodes = [(ROOT_CGROUP, { parent := 0, name := "/" })] from rfl,
      mem_singleton] at hmem
    cases hmem
    rfl
  refine ⟨?_, ?_, ?_, ?_, ?_, ?_⟩
  · rintro p c ⟨-, hf⟩
    cases hf
  · rintro p c ⟨-, hf⟩
    cases hf
  · intro x r hr
    rw [hroll hr]
    rfl
  · intro x r hr _
    rw [hroll hr]
    exact Nat.zero_le _
  · intro x r _ hr
    rw [hroll hr]
    exact nodup_nil
  · intro p c hp _
    obtain ⟨q, -, hq⟩ := List.mem_map.mp (mem_of_get hp)
    exact (congrArg Prod.snd hq).symm

theorem roll_of_node {n : CgroupNode} (h : s.node id = some n) : s.roll id = some n.roll := by
  rw [roll, h, map_some]

section
variable {s : System} (h : Inv s)
include h

theorem Inv.create (hok : s.ok (.create parent name)) (hs : s.step (.create parent name) = some t) : Inv t := by
  have hfresh : s.code.roll s.code.nextCgid = none := by
    rw [roll, isNone_iff_eq_none.mp hok, map_none]
  simp only [System.step, createCgroup] at hs
  cases hp : s.code.node parent with
  | none =>
    rw [hp] at hs
    cases hs
    exact h
  | some p =>
    rw [hp] at hs
    dsimp only at hs
    split_ifs at hs
    · cases hs
      exact h
    · cases hs
      refine h.replace (fun r hr => (some.inj hr).symm) (by simp [hfresh]) (fun x => ?_) rfl rfl fun x hx =>
        update_of_ne hx ..
      exact (roll_update_same (by intro n; rfl)).trans roll_insert

theorem Inv.remove (hs : s.step (.remove id) = some t) : Inv t := by
  cases hs
  by_cases hroot : id = ROOT_CGROUP
  · refine h.same (fun x => ?_) ?_ rfl rfl <;> simp only [removeCgroup, if_pos hroot]
  simp only [removeCgroup, if_neg hroot]
  cases hn : s.code.node id with
  | none => exact h
  | some n =>
    dsimp only
    split_ifs with hchildren hpids
    · exact h
    · refine h.free (roll_of_node hn) hpids (fun x => ?_) rfl rfl rfl
      rw [roll_free]
      split_ifs
      · rfl
      · exact roll_update_same fun _ => rfl
    · exact h.same (fun x => roll_update_same fun _ => rfl) rfl rfl rfl

theorem Inv.fork {parent child : Pid} (hok : s.ok (.fork parent child))
    (hs : s.step (.fork parent child) = some t) : Inv t := by
  simp only [System.ok, Bool.and_eq_true, decide_eq_true_eq, isNone_iff_eq_none, List.all_eq_true, Bool.or_eq_true,
    beq_iff_eq] at hok
  obtain ⟨⟨⟨hne, hnew⟩, hroom⟩, hlist⟩ := hok
  obtain ⟨r, hr, hlt, hwrap⟩ := room_iff.mp hroom
  obtain ⟨n, hn, rfl⟩ := map_eq_some_iff.mp hr
  have hcg : (System.addProc s.code child).cgroupOf parent = s.code.cgroupOf parent := by
    rw [cgroupOf, System.addProc, get_insert, if_neg hne, ← cgroupOf]
  have hcode : t.code = update ⟨s.code.nextCgid, s.code.nodes,
      SortedMap.modify child (fun _ => s.code.cgroupOf parent) (SortedMap.insert child ROOT_CGROUP s.code.procs),
      s.code.killed⟩ (s.code.cgroupOf parent) (CgroupNode.enter · child) := by
    cases hs
    simp only [cgroupFork, hcg]
    simp only [node] at hn
    simp only [node, System.addProc, hn]
    exact if_pos hlt
  have hforked : t.forked = update s.forked child true := by
    cases hs
    rfl
  have hget (p : Pid) : SortedMap.get t.code.procs p =
      if p = child then some (s.code.cgroupOf parent) else SortedMap.get s.code.procs p := by
    rw [hcode]
    simp only [State.update, get_modify, get_insert]
    split_ifs <;> rfl
  refine h.enter child hr hlt hwrap (fun x => ?_) ?_ ?_ ?_ ?_
  · rw [hcode]
    exact roll_update fun _ => rfl
  · intro x r' hr' hmem
    obtain ⟨n', hn', rfl⟩ := map_eq_some_iff.mp hr'
    exact (hlist (x, n') (mem_of_get hn')).resolve_left (not_not_intro hmem)
  · rintro p c ⟨hp, hf⟩
    rw [hget] at hp
    rw [hforked] at hf
    by_cases hpc : p = child
    · rw [if_pos hpc] at hp
      exact .inr ⟨hpc, (some.inj hp).symm⟩
    · rw [if_neg hpc] at hp
      rw [update_of_ne hpc] at hf
      exact .inl ⟨hpc, hp, hf⟩
  · cases hs
    rfl
  · intro p c hp hf
    rw [hget] at hp
    rw [hforked] at hf
    by_cases hpc : p = child
    · rw [hpc, update_self] at hf
      cases hf
    · rw [if_neg hpc] at hp
      rw [update_of_ne hpc] at hf
      exact h.unforked p c hp hf

end

theorem movePid_cases {s : System} (hok : s.ok (.move pid target)) : (s.code.movePid pid target).1 = s.code ∨
    (s.code.movePid pid target = (s.code.update target (CgroupNode.enter · pid), 0) ∧ (∀ c, ¬ s.Live pid c) ∧
      s.code.findPidCgroup pid = none ∧ System.room s.code target) := by
  cases hn : s.code.node target with
  | none =>
    left
    rw [movePid, hn]
  | some n =>
    simp only [System.ok, hn, isNone_some, Bool.false_or, Bool.or_eq_true, beq_iff_eq, Bool.and_eq_true,
      isNone_iff_eq_none, any_some, decide_eq_true_eq, Bool.not_eq_true'] at hok
    rcases hok with hsame | ⟨⟨hdead, hnone⟩, hroom⟩
    · left
      rw [movePid, hn, hsame]
      exact congrArg Prod.fst (if_pos rfl)
    by_cases hfull : n.pidsMax ≤ n.nrPids
    · left
      simp only [movePid, hn, hnone, moveInto, if_pos hfull]
    right
    refine ⟨?_, ?_, hnone, hroom.resolve_right hfull⟩
    · simp only [movePid, hn, hnone, moveInto, if_neg hfull]
    · rintro c ⟨hp, hf⟩
      rcases hdead with hdead | hdead
      · rw [hdead] at hp
        cases hp
      · rw [hdead] at hf
        cases hf

section
variable {s : System} (h : Inv s)
include h

theorem Inv.move (hok : s.ok (.move pid target)) (hs : s.step (.move pid target) = some t) : Inv t := by
  cases hs
  rcases movePid_cases hok with hsame | ⟨hmove, hdead, hnone, hroom⟩
  · exact h.same (fun x => by rw [hsame]) (by rw [hsame]) rfl rfl
  obtain ⟨r, hr, hlt, hwrap⟩ := room_iff.mp hroom
  refine h.enter pid hr hlt hwrap (fun x => ?_) ?_ ?_ rfl ?_
  · rw [hmove]
    exact roll_update fun _ => rfl
  · intro x r' hr' hmem
    exact absurd hmem (not_listed hnone hr')
  · rintro p c ⟨hp, hf⟩
    rw [hmove] at hp
    refine .inl ⟨?_, hp, hf⟩
    rintro rfl
    exact hdead c ⟨hp, hf⟩
  · intro p c hp hf
    rw [hmove] at hp
    exact h.unforked p c hp hf

theorem Inv.exit (hs : s.step (.exit pid) = some t) : Inv t := by
  cases hs
  by_cases hroot : s.code.cgroupOf pid = ROOT_CGROUP
  · have hexit : s.code.cgroupExit pid = s.code := by simp only [cgroupExit, if_pos hroot]
    rw [hexit]
    refine h.leave pid (fun x => (if_neg ?_).symm) rfl rfl rfl
    rintro ⟨hx, hne⟩
    exact hne (hx.trans hroot)
  cases hn : s.code.node (s.code.cgroupOf pid) with
  | none =>
    have hexit : s.code.cgroupExit pid = s.code := by simp only [cgroupExit, if_neg hroot, hn]
    rw [hexit]
    refine h.leave pid (fun x => ?_) rfl rfl rfl
    have hroll : s.code.roll (s.code.cgroupOf pid) = none := by rw [roll, hn, map_none]
    split_ifs with hx
    · rw [hx.1, hroll]
      exact hroll
    · rfl
  | some n =>
    have hleave : Inv ⟨System.dropProc (s.code.update (s.code.cgroupOf pid) (CgroupNode.leave · pid)) pid,
        update s.forked pid false, s.lowered⟩ := by
      refine h.leave pid (fun x => ?_) rfl rfl rfl
      change (s.code.update (s.code.cgroupOf pid) (CgroupNode.leave · pid)).roll x = _
      rw [roll_update (g := (·.leave pid)) fun _ => rfl]
      by_cases hx : x = s.code.cgroupOf pid
      · rw [if_pos hx, if_pos ⟨hx, hx ▸ hroot⟩]
      · rw [if_neg hx, if_neg fun hc => hx hc.1]
    simp only [cgroupExit, if_neg hroot, hn]
    split_ifs with hfree
    · rw [Bool.and_eq_true, Bool.and_eq_true, List.isEmpty_iff] at hfree
      have hroll : roll (s.code.update (s.code.cgroupOf pid) (CgroupNode.leave · pid)) (s.code.cgroupOf pid) =
          some (n.leave pid).roll := by
        rw [roll_update (g := (·.leave pid)) fun _ => rfl, if_pos rfl, roll_of_node hn]
        rfl
      refine hleave.free hroll hfree.1.2 (fun x => ?_) rfl rfl rfl
      exact roll_free
    · exact hleave

theorem Inv.setPidsMax {v : Nat} (hs : s.step (.setPidsMax id v) = some t) : Inv t := by
  cases hs
  have hlow : ((s.code.node id).any fun n => decide (v < n.nrPids)) = (s.code.roll id).any fun r => decide (v < r.nr) := by
    rw [roll, Option.any_map]
    rfl
  refine h.limit id v (fun x => ?_) ?_ rfl (by rw [hlow])
  · cases hn : s.code.node id with
    | none =>
      have hroll : s.code.roll id = none := by rw [roll, hn, map_none]
      simp only [writePidsMax, hn]
      split_ifs with hx
      · rw [hx, hroll, map_none]
      · rfl
    | some n =>
      simp only [writePidsMax, hn]
      exact roll_update fun _ => rfl
  · simp only [writePidsMax]
    split <;> rfl

theorem inv_step {e : Event} (hok : s.ok e) (hs : s.step e = some t) : Inv t := by
  cases e with
  | create parent name => exact h.create hok hs
  | remove id => exact h.remove hs
  | fork parent child => exact h.fork hok hs
  | move pid target => exact h.move hok hs
  | exit pid => exact h.exit hs
  | setPidsMax id v => exact h.setPidsMax hs

end

/-- In every run that meets the condition membership is consistent, and a move that meets it and fails changes nothing. -/
theorem membership_consistent {s₀ s : System} (h₀ : Inv s₀)
    (h : Reach (fun s e t => System.step s e = some t) (fun s e => System.ok s e = true) s₀ s) :
    Consistent s ∧ ∀ pid target, s.ok (.move pid target) = true → (s.code.movePid pid target).2 < 0 →
      (s.code.movePid pid target).1 = s.code := by
  refine ⟨(h.invariant h₀ fun _ _ _ hs hok hstep => inv_step hs hok hstep).consistent, ?_⟩
  intro pid target hok hfail
  rcases movePid_cases hok with hsame | ⟨hmove, -⟩
  · exact hsame
  · rw [hmove] at hfail
    cases hfail

/-- Process 1 forks process 2, which forks process 3, which exits; a number that is no process's is moved. -/
def forkRun : List Event :=
  [.fork 1 2, .create 1 "a", .fork 2 3, .setPidsMax 1 2, .exit 3, .move 9 2, .remove 2]

theorem membership_consistent_forks : ∃ s : System, s.Live 2 1 ∧ Consistent s := by
  have hrun : ((Reach.run System.step System.ok (System.init [1]) forkRun).map fun s =>
      (SortedMap.get s.code.procs 2, s.forked 2)) = some (some 1, true) := by
    decide +kernel
  obtain ⟨s, hs, hdata⟩ := map_eq_some_iff.mp hrun
  rw [Prod.mk.injEq] at hdata
  exact ⟨s, hdata, (membership_consistent (inv_init [1]) (Reach.of_run _ .start hs)).1⟩

/-- After a move the `Pcb` still names the old group; and a move to a group that is full fails and takes the process out of
    its old group. -/
theorem membership_lost :
    (∃ s, Reach.run System.step (fun _ _ => true) (System.init [1]) [.fork 1 2, .create 1 "a", .move 2 2] = some s ∧
      ¬ Consistent s) ∧
    (∃ s, Reach.run System.step (fun _ _ => true) (System.init [1]) [.fork 1 2, .create 1 "a", .setPidsMax 2 0] = some s ∧
      (s.code.movePid 2 2).2 = -11 ∧ (s.code.movePid 2 2).1.findPidCgroup 2 ≠ s.code.findPidCgroup 2) := by
  constructor
  · refine Reach.exists_run_and (A := fun s => (SortedMap.get s.code.procs 2 = some 1 ∧ s.forked 2 = true) ∧
      (s.code.node 2).map (·.pids) = some [2]) (by decide +kernel) fun s _ ⟨hlive, hpids⟩ h => ?_
    obtain ⟨n, hn, hpids⟩ := map_eq_some_iff.mp hpids
    have htwo := h.only 2 1 hlive 2 n hn (by rw [hpids]; exact mem_cons_self)
    cases htwo
  · exact Reach.exists_run (by decide +kernel)

end Moxide.Cgroup
