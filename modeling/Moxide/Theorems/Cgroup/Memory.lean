import Moxide.Cgroup
import Moxide.Lib.Reach

namespace Moxide.Cgroup
open Lib List Option State
open Function (update update_apply update_of_ne update_self)

/-! ### The tree -/

def State.par (s : State) (id : CgroupId) : Option CgroupId := (s.node id).map (·.parent)

inductive Path (par : CgroupId → Option CgroupId) : CgroupId → List CgroupId → Prop where
  | root {id : CgroupId} (h : par id = some 0) : Path par id [id]
  | up {id p : CgroupId} {l : List CgroupId} (h : par id = some p) (hp : p ≠ 0) (hl : Path par p l) : Path par id (id :: l)

def Tree (s : State) : Prop := ∀ id, s.node id ≠ none → ∃ l, Path s.par id l

def Under (s : State) (c a : CgroupId) : Prop := ∃ l, Path s.par c l ∧ a ∈ l

variable {par : CgroupId → Option CgroupId} {id a c : CgroupId} {l l' : List CgroupId}
    {f : CgroupNode → CgroupNode} {p : Pid}

variable {s t : State} {delta : Int}

section
variable (h : Path par id l)
include h

theorem Path.unique (h' : Path par id l') : l = l' := by
  induction h generalizing l' with
  | root h =>
    cases h' with
    | root _ => rfl
    | up h' hp _ =>
      rw [h] at h'
      exact absurd (some.inj h').symm hp
  | up h hp _ ih =>
    cases h' with
    | root h' =>
      rw [h] at h'
      exact absurd (some.inj h') hp
    | up h' _ hl' =>
      rw [h] at h'
      cases h'
      rw [ih hl']

theorem Path.suffix (ha : a ∈ l) : ∃ r, Path par a r ∧ r.length ≤ l.length := by
  induction h with
  | root h =>
    rw [mem_singleton.mp ha]
    exact ⟨_, .root h, le_refl _⟩
  | up h hp hl ih =>
    rcases mem_cons.mp ha with rfl | ha
    · exact ⟨_, .up h hp hl, le_refl _⟩
    · obtain ⟨r, hr, hlen⟩ := ih ha
      exact ⟨r, hr, Nat.le_succ_of_le hlen⟩

theorem Path.nodup : l.Nodup := by
  induction h with
  | root _ => exact nodup_singleton _
  | up h hp hl ih =>
    refine nodup_cons.mpr ⟨fun hmem => ?_, ih⟩
    obtain ⟨r, hr, hlen⟩ := hl.suffix hmem
    rw [hr.unique (.up h hp hl)] at hlen
    exact absurd hlen (Nat.not_succ_le_self _)

theorem Path.mem_dom (ha : a ∈ l) : par a ≠ none := by
  obtain ⟨r, hr, -⟩ := h.suffix ha
  cases hr with
  | root h => rw [h]; exact some_ne_none _
  | up h _ _ => rw [h]; exact some_ne_none _

end

theorem Path.length_le (h : Path s.par id l) : l.length ≤ s.nodes.length := by
  have hsub : l ⊆ s.nodes.map (·.1) := by
    intro a ha
    obtain ⟨p, hp⟩ := ne_none_iff_exists'.mp (h.mem_dom ha)
    obtain ⟨n, hn, -⟩ := map_eq_some_iff.mp hp
    exact List.mem_map.mpr ⟨_, SortedMap.mem_of_get hn, rfl⟩
  have hlen := (subperm_of_subset h.nodup hsub).length_le
  rwa [length_map] at hlen

theorem under_iff (h : Path s.par c l) : Under s c a ↔ a ∈ l := by
  constructor
  · rintro ⟨r, hr, ha⟩
    rwa [h.unique hr]
  · intro ha
    exact ⟨l, h, ha⟩

/-! ### One charge -/

def CgroupNode.charge (n : CgroupNode) (delta : Int) : CgroupNode := { n with memBytes := State.addDelta n.memBytes delta }

theorem node_update : (s.update id f).node a = if a = id then (s.node a).map f else s.node a :=
  SortedMap.get_modify

theorem par_update (h : ∀ n, (f n).parent = n.parent) : (s.update id f).par = s.par := by
  funext a
  rw [par, node_update]
  split_ifs
  · rw [Option.map_map]
    congr 1
    funext n
    exact h n
  · rfl

theorem node_of_par {p : CgroupId} (h : s.par id = some p) : ∃ n, s.node id = some n ∧ n.parent = p :=
  map_eq_some_iff.mp h

theorem chargeLoop_some (h : Path par c l) : ∀ {s : State} {fuel : Nat}, s.par = par → l.length ≤ fuel →
    ∃ t, State.chargeLoop delta fuel s c = some t := by
  induction h with
  | root hroot =>
    intro s fuel hs hfuel
    obtain ⟨fuel, rfl⟩ := Nat.exists_eq_succ_of_ne_zero (ne_of_gt hfuel)
    obtain ⟨n, hn, hparent⟩ := node_of_par (hs ▸ hroot)
    simp only [chargeLoop, hn, hparent, if_true]
    split_ifs
    · exact ⟨_, rfl⟩
    · exact ⟨_, rfl⟩
  | up hup hp hl ih =>
    intro s fuel hs hfuel
    obtain ⟨fuel, rfl⟩ := Nat.exists_eq_succ_of_ne_zero (ne_of_gt (lt_of_lt_of_le (Nat.succ_pos _) hfuel))
    obtain ⟨n, hn, rfl⟩ := node_of_par (hs ▸ hup)
    simp only [chargeLoop, hn, if_neg hp]
    split_ifs
    · exact ⟨_, rfl⟩
    · exact ih ((par_update (by intro n; rfl)).trans hs) (Nat.le_of_succ_le_succ hfuel)

theorem chargeLoop_path (h : Path par c l) : ∀ {s t : State} {fuel : Nat}, s.par = par →
    (∀ a ∈ l, ∀ n, s.node a = some n → n.parent ≠ 0 → State.addDelta n.memBytes delta ≤ n.memoryMax) →
    State.chargeLoop delta fuel s c = some t →
    (∀ a, t.node a = if a ∈ l then (s.node a).map (·.charge delta) else s.node a) ∧ t.procs = s.procs := by
  induction h with
  | @root id hroot =>
    intro s t fuel hs _ ht
    obtain ⟨n, hn, hparent⟩ := node_of_par (hs ▸ hroot)
    cases fuel with
    | zero => cases ht
    | succ fuel =>
      simp only [chargeLoop, hn, hparent, if_true] at ht
      have hnode (a : CgroupId) : (s.update id (·.charge delta)).node a =
          if a ∈ [id] then (s.node a).map (·.charge delta) else s.node a := by
        simp only [node_update, mem_singleton]
      split_ifs at ht
      · cases ht
        exact ⟨hnode, rfl⟩
      · cases ht
        exact ⟨hnode, rfl⟩
  | @up id p l hup hp hl ih =>
    intro s t fuel hs hlimit ht
    obtain ⟨n, hn, rfl⟩ := node_of_par (hs ▸ hup)
    have hnot : id ∉ l := (nodup_cons.mp (Path.up hup hp hl).nodup).1
    cases fuel with
    | zero => cases ht
    | succ fuel =>
      simp only [chargeLoop, hn, if_neg hp] at ht
      rw [if_neg (not_lt.mpr (hlimit id mem_cons_self n hn hp))] at ht
      have hother {a : CgroupId} (ha : a ∈ l) : (s.update id (·.charge delta)).node a = s.node a := by
        rw [node_update, if_neg]
        rintro rfl
        exact hnot ha
      obtain ⟨hnode, hprocs⟩ := ih (s := s.update id (·.charge delta)) ((par_update (by intro n; rfl)).trans hs)
        (fun a ha n' hn' => hlimit a (mem_cons_of_mem _ ha) n' (hother ha ▸ hn')) ht
      refine ⟨fun a => ?_, hprocs⟩
      rw [hnode]
      by_cases ha : a = id
      · rw [ha, if_neg hnot, node_update, if_pos rfl, if_pos mem_cons_self]
      · by_cases hal : a ∈ l
        · rw [if_pos hal, hother hal, if_pos (mem_cons_of_mem _ hal)]
        · rw [if_neg hal, node_update, if_neg ha, if_neg fun hc => (mem_cons.mp hc).elim ha hal]

theorem cast_addDelta {m : Nat} (hlow : 0 ≤ (m : Int) + delta) (hhigh : (m : Int) + delta ≤ U64_MAX) :
    (State.addDelta m delta : Int) = m + delta := by
  rw [addDelta]
  split_ifs with hsign
  · omega
  · omega

/-! ### Totals -/

structure Account where
  code : State
  charged : Pid → Int

namespace Account
open Classical

noncomputable def total (s : Account) (id : CgroupId) : Int :=
  (s.code.procs.map fun q => if Under s.code q.2 id then s.charged q.1 else 0).sum

inductive Event where
  | charge (pid : Pid) (delta : Int)
  | setMemoryMax (id : CgroupId) (v : Nat)

def step (s : Account) : Event → Option Account
  | .charge pid delta => (s.code.chargeMem pid delta).map fun t =>
      ⟨t, update s.charged pid (s.charged pid + delta)⟩
  | .setMemoryMax id v => some { s with code := (s.code.writeMemoryMax id v).1 }

/-- A process is charged, not below 0 in all, no total overflows, and in no group of its path below the root does the new
    usage exceed the limit. -/
def Ok (s : Account) : Event → Prop
  | .charge pid delta => ∃ c, SortedMap.get s.code.procs pid = some c ∧ 0 ≤ s.charged pid + delta ∧
      ∀ id n, Under s.code c id → s.code.node id = some n →
        s.total id + delta ≤ U64_MAX ∧ (n.parent ≠ 0 → (n.memBytes : Int) + delta ≤ n.memoryMax)
  | .setMemoryMax _ _ => True

end Account

structure AddsUp (s : Account) : Prop where
  tree : Tree s.code
  procs : (s.code.procs.map (·.1)).Nodup
  charged : ∀ p, 0 ≤ s.charged p
  usage : ∀ id n, s.code.node id = some n → (n.memBytes : Int) = s.total id

theorem sum_change {l : List (Pid × CgroupId)} {f g : Pid × CgroupId → Int}
    (hn : (l.map (·.1)).Nodup) (hmem : (p, c) ∈ l) (hsame : ∀ q ∈ l, q.1 ≠ p → g q = f q) :
    (l.map g).sum = (l.map f).sum + (g (p, c) - f (p, c)) := by
  have hrest : (l.erase (p, c)).map g = (l.erase (p, c)).map f := by
    refine map_congr_left fun q hq => ?_
    obtain ⟨hne, hq⟩ := hn.of_map.mem_erase_iff.mp hq
    exact hsame q hq fun heq => hne (inj_on_of_nodup_map hn hq hmem heq)
  have hperm := perm_cons_erase hmem
  rw [(hperm.map g).sum_eq, (hperm.map f).sum_eq, map_cons, map_cons, sum_cons, sum_cons, hrest]
  omega

theorem total_nonneg {s : Account} (h : ∀ p, 0 ≤ s.charged p) (id : CgroupId) : 0 ≤ s.total id := by
  refine sum_nonneg fun x hx => ?_
  obtain ⟨q, -, rfl⟩ := List.mem_map.mp hx
  split_ifs
  · exact h q.1
  · exact le_refl _

theorem under_congr (h : t.par = s.par) : Under t c a ↔ Under s c a := by
  rw [Under, h, ← Under]

theorem tree_congr (h : t.par = s.par) (hs : Tree s) : Tree t := by
  intro id hid
  rw [h]
  refine hs id fun hnone => hid ?_
  have hpar : t.par id = none := by rw [h, par, hnone, map_none]
  exact map_eq_none_iff.mp hpar

open Classical in
theorem total_congr (hpar : t.par = s.par) (hprocs : t.procs = s.procs) (charged : Pid → Int)
    (id : CgroupId) : Account.total ⟨t, charged⟩ id = Account.total ⟨s, charged⟩ id := by
  rw [Account.total, Account.total, hprocs]
  simp only [under_congr hpar]

open Classical in
theorem total_charge {s : Account} (hpar : t.par = s.code.par)
    (hprocs : t.procs = s.code.procs) (hn : (s.code.procs.map (·.1)).Nodup) (hp : SortedMap.get s.code.procs p = some c)
    (id : CgroupId) : Account.total ⟨t, update s.charged p (s.charged p + delta)⟩ id =
      s.total id + if Under s.code c id then delta else 0 := by
  rw [Account.total, Account.total, hprocs]
  simp only [under_congr hpar]
  rw [sum_change hn (SortedMap.mem_of_get hp) fun q _ hq => by rw [update_of_ne hq]]
  dsimp only
  rw [update_self]
  split_ifs <;> omega

section
variable {s t : Account} (h : AddsUp s)
include h

theorem AddsUp.charge (hok : s.Ok (.charge p delta)) (hs : s.step (.charge p delta) = some t) : AddsUp t := by
  obtain ⟨c, hc, hlow, hhigh⟩ := hok
  obtain ⟨u, hu, rfl⟩ := map_eq_some_iff.mp hs
  have hcg : s.code.cgroupOf p = c := by rw [cgroupOf, hc, getD_some]
  rw [chargeMem, hcg] at hu
  have hcharged (q : Pid) : 0 ≤ update s.charged p (s.charged p + delta) q := by
    rw [update_apply]
    split_ifs
    · exact hlow
    · exact h.charged q
  cases hnode : s.code.node c with
  | none =>
    -- the process is in no group, and nothing is charged
    have hsame : u = s.code := by
      simp only [chargeLoop, hnode] at hu
      exact (some.inj hu).symm
    have hnot (id : CgroupId) : ¬ Under s.code c id := by
      rintro ⟨l, hl, ha⟩
      cases hl with
      | root hpar | up hpar _ _ =>
        rw [par, hnode] at hpar
        cases hpar
    refine ⟨hsame ▸ h.tree, hsame ▸ h.procs, hcharged, ?_⟩
    intro id n hn
    rw [total_charge (by rw [hsame]) (by rw [hsame]) h.procs hc, if_neg (hnot id), add_zero]
    exact h.usage id n (hsame ▸ hn)
  | some n₀ =>
    obtain ⟨l, hl⟩ := h.tree c (by rw [hnode]; exact some_ne_none _)
    -- the new usage of a group of the path is its new total
    have hadd {id : CgroupId} {n : CgroupNode} (hid : id ∈ l) (hn : s.code.node id = some n) :
        (addDelta n.memBytes delta : Int) = n.memBytes + delta := by
      have hnew := total_nonneg (s := ⟨s.code, update s.charged p (s.charged p + delta)⟩) hcharged id
      rw [total_charge rfl rfl h.procs hc, if_pos ((under_iff hl).mpr hid), ← h.usage id n hn] at hnew
      have hmax := (hhigh id n ((under_iff hl).mpr hid) hn).1
      rw [← h.usage id n hn] at hmax
      exact cast_addDelta hnew hmax
    have hlimit : ∀ a ∈ l, ∀ n, s.code.node a = some n → n.parent ≠ 0 → addDelta n.memBytes delta ≤ n.memoryMax := by
      intro a ha n hn hparent
      have hle := (hhigh a n ((under_iff hl).mpr ha) hn).2 hparent
      rw [← hadd ha hn] at hle
      exact Int.ofNat_le.mp hle
    obtain ⟨hunode, huprocs⟩ := chargeLoop_path hl rfl hlimit hu
    have hupar : u.par = s.code.par := by
      funext a
      rw [par, hunode]
      split_ifs
      · rw [Option.map_map]
        rfl
      · rfl
    refine ⟨tree_congr hupar h.tree, huprocs ▸ h.procs, hcharged, ?_⟩
    intro id n hn
    rw [total_charge hupar huprocs h.procs hc]
    rw [hunode] at hn
    by_cases hid : id ∈ l
    · rw [if_pos hid] at hn
      obtain ⟨n', hn', rfl⟩ := map_eq_some_iff.mp hn
      rw [if_pos ((under_iff hl).mpr hid), ← h.usage id n' hn']
      exact hadd hid hn'
    · rw [if_neg hid] at hn
      rw [if_neg fun hc => hid ((under_iff hl).mp hc), add_zero]
      exact h.usage id n hn

theorem AddsUp.setMemoryMax {v : Nat} (hs : s.step (.setMemoryMax id v) = some t) : AddsUp t := by
  cases hs
  cases hnode : s.code.node id with
  | none =>
    have hsame : (s.code.writeMemoryMax id v).1 = s.code := by rw [writeMemoryMax, hnode]
    rw [hsame]
    exact h
  | some n₀ =>
    have hcode : (s.code.writeMemoryMax id v).1 = s.code.update id fun n => { n with memoryMax := v } := by
      rw [writeMemoryMax, hnode]
    rw [hcode]
    have hpar : (s.code.update id fun n => { n with memoryMax := v }).par = s.code.par := par_update fun _ => rfl
    refine ⟨tree_congr hpar h.tree, h.procs, h.charged, ?_⟩
    intro a n hn
    rw [total_congr hpar rfl]
    rw [node_update] at hn
    split_ifs at hn
    · obtain ⟨n', hn', rfl⟩ := map_eq_some_iff.mp hn
      exact h.usage a n' hn'
    · exact h.usage a n hn

theorem addsUp_step {e : Account.Event} (hok : s.Ok e) (hs : s.step e = some t) : AddsUp t := by
  cases e with
  | charge pid delta => exact h.charge hok hs
  | setMemoryMax id v => exact h.setMemoryMax hs

end

theorem addsUp_zero (htree : Tree s) (hprocs : (s.procs.map (·.1)).Nodup)
    (hzero : ∀ id n, s.node id = some n → n.memBytes = 0) : AddsUp ⟨s, fun _ => 0⟩ := by
  refine ⟨htree, hprocs, fun _ => le_refl _, ?_⟩
  intro id n hn
  rw [hzero id n hn, Account.total]
  simp

/-- In every tree and every run that meets the condition, the usage of every group is what the processes in its subtree have
    been charged; and every charge ends. -/
theorem memory_adds_up {s₀ : State} {s : Account} (htree : Tree s₀) (hprocs : (s₀.procs.map (·.1)).Nodup)
    (hzero : ∀ id n, s₀.node id = some n → n.memBytes = 0)
    (h : Reach (fun s e t => Account.step s e = some t) Account.Ok ⟨s₀, fun _ => 0⟩ s) :
    (∀ id n, s.code.node id = some n → (n.memBytes : Int) = s.total id) ∧
    (∀ pid delta, ∃ t, s.code.chargeMem pid delta = some t) := by
  have hadds : AddsUp s :=
    h.invariant (I := AddsUp) (addsUp_zero htree hprocs hzero) fun _ _ _ hs hok hstep => addsUp_step hs hok hstep
  refine ⟨hadds.usage, fun pid delta => ?_⟩
  rw [chargeMem]
  cases hnode : s.code.node (s.code.cgroupOf pid) with
  | none =>
    refine ⟨s.code, ?_⟩
    simp only [chargeLoop, hnode]
  | some n =>
    obtain ⟨l, hl⟩ := hadds.tree _ (by rw [hnode]; exact some_ne_none n)
    exact chargeLoop_some hl rfl (Nat.le_succ_of_le hl.length_le)

/-! ### A group below the root -/

/-- The root group and a group below it with a limit of 100 bytes, which process 5 is in. -/
def limited : State :=
  ⟨3, [(1, { parent := 0, name := "/", children := [2] }),
    (2, { parent := 1, name := "a", pids := [5], memoryMax := 100, nrPids := 1 })], [(5, 2)], []⟩

theorem par_limited (id : CgroupId) : limited.par id = if id = 1 then some 0 else if id = 2 then some 1 else none := by
  simp only [par, node, limited, SortedMap.get_cons, eq_comm]
  split_ifs <;> rfl

theorem path_limited_one : Path limited.par 1 [1] := .root rfl

theorem path_limited_two : Path limited.par 2 [2, 1] := .up rfl (by decide) path_limited_one

theorem tree_limited : Tree limited := by
  intro id hid
  by_cases h1 : id = 1
  · exact ⟨_, h1 ▸ path_limited_one⟩
  by_cases h2 : id = 2
  · exact ⟨_, h2 ▸ path_limited_two⟩
  · have hpar : limited.par id = none := by rw [par_limited, if_neg h1, if_neg h2]
    exact absurd (map_eq_none_iff.mp hpar) hid

theorem nodes_limited : limited.nodes = [(1, { parent := 0, name := "/", children := [2] }),
    (2, { parent := 1, name := "a", pids := [5], memoryMax := 100, nrPids := 1 })] := rfl

theorem zero_limited (id : CgroupId) (n : CgroupNode) (h : limited.node id = some n) : n.memBytes = 0 := by
  have hmem := SortedMap.mem_of_get h
  rcases mem_cons.mp hmem with heq | hmem
  · cases heq
    rfl
  · cases mem_singleton.mp hmem
    rfl

theorem total_limited (t : State) (hpar : t.par = limited.par) (hprocs : t.procs = limited.procs) (charged : Pid → Int) :
    Account.total ⟨t, charged⟩ 1 = charged 5 := by
  have hunder : Under t 2 1 := (under_congr hpar).mpr ((under_iff path_limited_two).mpr (by decide))
  rw [Account.total, hprocs]
  simp [limited, hunder]

theorem memory_adds_up_limited : ∃ s : Account, s.charged 5 = 60 ∧ ∀ id n, s.code.node id = some n →
    (n.memBytes : Int) = s.total id := by
  obtain ⟨t, ht⟩ : ∃ t, limited.chargeMem 5 60 = some t := ⟨_, rfl⟩
  have hstep : Account.step ⟨limited, fun _ => 0⟩ (.charge 5 60) = some ⟨t, update (fun _ => 0) 5 (0 + 60)⟩ := by
    rw [Account.step, ht, map_some]
  have hok : Account.Ok ⟨limited, fun _ => 0⟩ (.charge 5 60) := by
    refine ⟨2, rfl, by decide, fun id n _ hn => ?_⟩
    have htotal : Account.total ⟨limited, fun _ => 0⟩ id = 0 := by simp [Account.total]
    rw [htotal, zero_limited id n hn]
    refine ⟨by decide, fun hparent => ?_⟩
    have hmem := SortedMap.mem_of_get hn
    rw [nodes_limited] at hmem
    rcases mem_cons.mp hmem with heq | hmem
    · cases heq
      exact absurd rfl hparent
    · cases mem_singleton.mp hmem
      decide
  have hreach : Reach (fun s e t => Account.step s e = some t) Account.Ok ⟨limited, fun _ => 0⟩ _ :=
    .step (.charge 5 60) .start hok hstep
  exact ⟨_, rfl, (memory_adds_up tree_limited (by decide) zero_limited hreach).1⟩

/-- A charge over the limit of a group is not added to the groups above. -/
theorem memory_not_charged_above : ∃ t, limited.chargeMem 5 200 = some t ∧ (t.node 1).map (·.memBytes) = some 0 ∧
    Account.total ⟨t, update (fun _ => 0) 5 200⟩ 1 = 200 := by
  have hpar : (limited.update 2 (·.charge 200)).par = limited.par := par_update fun _ => rfl
  refine ⟨{ limited.update 2 (·.charge 200) with killed := [5] }, rfl, rfl, ?_⟩
  exact (total_limited _ hpar rfl _).trans (update_self ..)

end Moxide.Cgroup
