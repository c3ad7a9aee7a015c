import Moxide.Theorems.Pmm.Alloc

/-! What each call does to the invariant and to the references. -/

namespace Moxide.Pmm
open Lib List
open State

section
variable {whole : Prop} {A : Nat → Prop} {lay : Layout} {s t : State} {L : Lists} {n f k : Nat}

theorem Inv.added_congr {H A' : Nat → Prop} (h : Inv whole A H s L) (hA : ∀ g, A g ↔ A' g) : Inv whole A' H s L :=
  (funext fun g => propext (hA g) : A = A') ▸ h

theorem Inv.rest {H : Nat → Prop} (h : Inv whole A H s L) (hinfo : t.info = s.info) (hheads : t.heads = s.heads)
    (hpages : t.freePages = s.freePages) (hlen : t.len = s.len) : Inv whole A H t L := by
  refine h.outside hheads (fun _ => hpages) hlen (fun _ => by rw [hinfo]) id h.known (fun hg => ?_) h.not_hand h.hand
    (fun _ _ _ => by rw [hinfo]; exact id) fun hw _ => by rw [hinfo]; exact h.cover hw
  rw [hinfo]
  exact h.node hg

/-! ### Allocation -/

structure Granted (A : Nat → Prop) (s t : State) (f count : Nat) : Prop where
  page : ∀ {g}, f ≤ g ∧ g < f + count → A g ∧ (s.info g).refcount = 0
  rest : Recounted s t fun g => if f ≤ g ∧ g < f + count then 1 else (s.info g).refcount

/-- At most pages of the pool have been handed out. Once regions have been added, that is one page at a time. -/
structure Pooled (lay : Layout) (s t : State) (count : Nat) (r : Option Nat) : Prop where
  state : t = { s with bump := t.bump }
  frame : s.live = true → (r = none ∧ t.bump = s.bump) ∨
    (r = some (lay.poolBase + s.bump) ∧ count = 1 ∧ t.bump = s.bump + 1 ∧ s.bump < POOL_PAGES)

def Outcome (whole : Prop) (A : Nat → Prop) (lay : Layout) (s t : State) (count : Nat) (r : Option Nat) : Prop :=
  (∃ L, Inv whole A NoHand t L) ∧ ((∃ f, r = some f ∧ Granted A s t f count) ∨ Pooled lay s t count r)

theorem Taken.granted (h : Taken A s t n f k) : Granted A s t f (2 ^ k) :=
  ⟨fun hg => ⟨(h.page hg).1, (h.page hg).2.1⟩, h.rest⟩

variable {count preferred m : Nat} {r : Option Nat}

theorem Inv.pooled (h : Inv whole A NoHand s L) (hp : Pooled lay s t count r) : Outcome whole A lay s t count r := by
  refine ⟨⟨L, ?_⟩, .inr hp⟩
  rw [hp.state]
  exact h.rest rfl rfl rfl rfl

theorem Pooled.failed : Pooled lay s s count none := ⟨rfl, fun _ => .inl ⟨rfl, rfl⟩⟩

theorem Pooled.allocPool (lay : Layout) (hboot : s.bootFree = []) :
    Pooled lay s (s.allocPool lay).2 1 (s.allocPool lay).1 := by
  unfold State.allocPool
  split
  · rename_i hcons
    rw [hboot] at hcons
    cases hcons
  split
  · exact Pooled.failed
  · rename_i hlt
    exact ⟨rfl, fun _ => .inr ⟨rfl, rfl, rfl, Nat.lt_of_not_le hlt⟩⟩

section
variable (h : Inv whole A NoHand s L) (hboot : s.bootFree = [])
include h hboot

theorem Inv.allocPage (ht : s.allocPage lay preferred = (r, t)) : Outcome whole A lay s t 1 r := by
  unfold State.allocPage at ht
  split at ht
  · rename_i hfrom
    cases ht
    split at hfrom
    · obtain ⟨hinv, n, htaken⟩ := h.allocFrom _ hfrom
      exact ⟨hinv, .inl ⟨_, rfl, htaken.granted⟩⟩
    · cases hfrom
  · have hpool := Pooled.allocPool lay hboot
    rw [ht] at hpool
    exact h.pooled hpool

theorem Inv.allocPageOnNode (ht : s.allocPageOnNode lay n preferred = some (r, t)) : Outcome whole A lay s t 1 r := by
  unfold State.allocPageOnNode at ht
  split at ht
  · split at ht
    · split at ht
      · rename_i hn
        cases ht
        obtain ⟨hinv, htaken⟩ := h.buddyAllocOrderNode hn
        exact ⟨hinv, .inl ⟨_, rfl, htaken.granted⟩⟩
      · exact h.allocPage hboot (Option.some.inj ht)
    · cases ht
  · exact h.allocPage hboot (Option.some.inj ht)

end

theorem allocSingly_state (lay : Layout) (hboot : s.bootFree = []) (hlive : s.live = false) (preferred : Nat) :
    ∀ (n : Nat) (first : Option Nat) (b : Nat), ∃ b',
      (allocSingly lay preferred n first { s with bump := b }).2 = { s with bump := b' } := by
  intro n
  induction n with
  | zero => exact fun _ b => ⟨b, rfl⟩
  | succ n ih =>
    intro first b
    have hpage : (State.allocPage lay { s with bump := b } preferred) = allocPool lay { s with bump := b } := by
      rw [State.allocPage]
      simp [hlive]
    have hpool := (Pooled.allocPool lay (s := { s with bump := b }) hboot).state
    rw [allocSingly, hpage]
    split
    · rename_i ht
      rw [ht] at hpool
      exact ⟨_, hpool⟩
    rename_i ht
    rw [ht] at hpool
    dsimp only at hpool
    rw [hpool]
    exact ih _ _

theorem orderFor_spec (hk : orderFor n = some k) : n ≤ 2 ^ k ∧ ∀ j < k, 2 ^ j < n := by
  obtain ⟨hle, -, hlt⟩ := find?_range_eq_some.mp hk
  refine ⟨of_decide_eq_true hle, fun j hj => ?_⟩
  have hnot := hlt j hj
  simpa using hnot

section
variable (h : Taken A s t m f k) (hinv : Inv whole A NoHand t L)
include h hinv

theorem Taken.trimming : Trimming whole A t L m f k n n := by
  have hone : ∀ {g}, InBlock f k g → (t.info g).refcount ≠ 0 := by
    intro g hg
    rw [h.rest.refcount g, if_pos hg]
    decide
  refine ⟨hinv, h.aligned, fun hg => ⟨(h.page hg).1, (h.page hg).2.2⟩, fun hg _ => hone hg, fun _ i => ?_⟩
  refine ⟨[], L m i, rfl, List.Pairwise.nil, fun q hq => absurd hq not_mem_nil, fun q hq hin => ?_⟩
  exact hone hin (hinv.refcount_eq_zero (Lists.covers_of_mem hq))

theorem Taken.trim (hk : orderFor n = some k) (hn : 2 ≤ n) :
    (∃ L', Inv whole A NoHand (t.trim f n (2 ^ k)) L') ∧ Granted A s (t.trim f n (2 ^ k)) f n := by
  obtain ⟨hle, hlt⟩ := orderFor_spec hk
  have hsub : n + (2 ^ k - n) = 2 ^ k := Nat.add_sub_cancel' hle
  have hknown : ∀ j, n ≤ j → j < n + (2 ^ k - n) → t.known (f + j) := fun j _ hj =>
    hinv.known (h.page (g := f + j) ⟨by omega, by omega⟩).1
  have hcount := Recounted.trimLoop (f := f) (2 ^ k - n) hknown
  constructor
  · cases k with
    | zero => omega
    | succ k =>
      have hhalf := hlt k (Nat.lt_succ_self k)
      exact Trimming.run (by rw [pow_succ]; omega) _ hsub (le_refl n) (h.trimming hinv)
  · refine ⟨fun {g} hg => h.granted.page ⟨hg.1, by omega⟩, (h.rest.trans hcount).congr fun g => ?_⟩
    -- the pages given back had no references before the block was handed out
    by_cases htail : f + n ≤ g ∧ g < f + n + (2 ^ k - n)
    · rw [if_pos htail, if_neg (by omega)]
      exact (h.page (g := g) ⟨by omega, by omega⟩).2.1.symm
    rw [if_neg htail, h.rest.refcount g]
    by_cases hg : f ≤ g ∧ g < f + n
    · rw [if_pos hg, if_pos ⟨hg.1, by omega⟩]
    · rw [if_neg hg, if_neg (by unfold InBlock; omega)]

end

theorem Inv.allocPagesContig (h : Inv whole A NoHand s L) (hboot : s.bootFree = [])
    (ht : s.allocPagesContig lay n preferred = some (r, t)) : Outcome whole A lay s t n r := by
  unfold State.allocPagesContig at ht
  split at ht
  · cases ht
    exact h.pooled Pooled.failed
  split at ht
  · rename_i hone
    rw [hone]
    exact h.allocPage hboot (Option.some.inj ht)
  split at ht
  · rename_i hlive
    obtain ⟨b, hb⟩ := allocSingly_state lay hboot hlive preferred (min n 1024) none s.bump
    rw [show (allocSingly lay preferred (min n 1024) none s).2 = t from congrArg Prod.snd (Option.some.inj ht)] at hb
    refine h.pooled ⟨?_, fun hlive' => ?_⟩
    · rw [hb]
    · rw [hlive] at hlive'
      cases hlive'
  obtain ⟨order, horder, hr⟩ := Option.map_eq_some_iff.mp ht
  split at hr
  · cases hr
    exact h.pooled Pooled.failed
  split at hr
  · rename_i hfrom
    cases hr
    obtain ⟨⟨L', hinv⟩, m, htaken⟩ := h.allocFrom _ hfrom
    obtain ⟨hinv', hgranted⟩ := htaken.trim hinv horder (by omega)
    exact ⟨hinv', .inl ⟨_, rfl, hgranted⟩⟩
  · cases hr
    exact h.pooled Pooled.failed

def State.Call.asks : Call → Option Nat
  | .allocPage _ | .allocPageOnNode _ _ => some 1
  | .allocPagesContig n _ => some n
  | .addRegion _ _ _ | .getPage _ | .freePage _ => none

theorem Inv.alloc (h : Inv whole A NoHand s L) (hboot : s.bootFree = []) {c : Call}
    (hc : c.asks = some count) (ht : s.exec lay c = some (r, t)) : Outcome whole A lay s t count r := by
  cases c with
  | allocPage preferred =>
    cases hc
    exact h.allocPage hboot (Option.some.inj ht)
  | allocPageOnNode n preferred =>
    cases hc
    exact h.allocPageOnNode hboot ht
  | allocPagesContig n preferred =>
    cases hc
    exact h.allocPagesContig hboot ht
  | addRegion base size n => cases hc
  | getPage pa => cases hc
  | freePage pa => cases hc

theorem Layout.isKernelPage_of_pool (lay : Layout) (hle : lay.poolBase ≤ f) (hlt : f < lay.poolBase + POOL_PAGES) :
    lay.isKernelPage f = true := by
  have hstart := lay.pool_start
  have hend := lay.pool_end
  have h1 := Nat.mul_le_mul_right PAGE_SIZE hle
  have h2 : f * PAGE_SIZE < (lay.poolBase + POOL_PAGES) * PAGE_SIZE := Nat.mul_lt_mul_of_pos_right hlt (by decide)
  simp only [Layout.isKernelPage, decide_eq_true_eq]
  omega

theorem Layout.poolIndex_eq_none (hf : lay.isKernelPage f = false) : lay.poolIndex f = none := by
  refine if_neg fun hpool => ?_
  rw [lay.isKernelPage_of_pool hpool.1 hpool.2] at hf
  cases hf

theorem Inv.setRefcount (h : Inv whole A NoHand s L) {c : UInt32} (hout : ¬L.Covers f) (hc : whole → A f → c ≠ 0) :
    Inv whole A NoHand (s.setInfo f { s.info f with refcount := c }) L :=
  h.setInfo hout id .inr h.known h.node id .inr False.elim id fun hw hf => .inr (hc hw hf)

theorem Inv.not_covers (h : Inv whole A NoHand s L) (hf : A f → (s.info f).refcount ≠ 0) : ¬L.Covers f := by
  rintro ⟨n, k, e, he, hin⟩
  exact hf (h.page he hin).1 (h.page he hin).2.2.2

theorem buddyFreePage_setInfo (hf : s.known f) (c : UInt32) :
    (s.setInfo f { s.info f with refcount := c }).buddyFreePage f = s.buddyFreePage f := by
  rw [buddyFreePage_eq hf, buddyFreePage_eq (s := s.setInfo f _) hf, info_setInfo_self, setInfo_setInfo]

theorem Inv.freePage {pa : Nat} (h : Inv whole A NoHand s L) (hf : A (pa / PAGE_SIZE))
    (hkern : lay.isKernelPage (pa / PAGE_SIZE) = false) (hout : (s.info (pa / PAGE_SIZE)).refcount ≠ 0)
    (hnear : whole → (s.info (pa / PAGE_SIZE)).refcount = 1 →
      Near (L (s.info (pa / PAGE_SIZE)).numaNode) (pa / PAGE_SIZE) 0)
    (ht : s.freePage lay pa = some t) :
    (∃ L', Inv whole A NoHand t L') ∧ Recounted s t (Function.update (fun g => (s.info g).refcount) (pa / PAGE_SIZE)
      ((s.info (pa / PAGE_SIZE)).refcount - 1)) := by
  have hknown := h.known hf
  have hcover := h.not_covers fun _ => hout
  have hzero : pa ≠ 0 := by
    rintro rfl
    cases hknown
  simp only [State.freePage, hzero, hkern, Layout.poolIndex_eq_none hkern, hknown, hout, if_true, if_false,
    Bool.false_eq_true] at ht
  split at ht
  · cases ht
  split at ht
  · rename_i hone
    cases ht
    rw [buddyFreePage_setInfo hknown, hone]
    obtain ⟨L', hinv, -⟩ := h.buddyFreePage hf hcover fun hw => hnear hw hone
    exact ⟨⟨L', hinv⟩, Recounted.buddyFreePage hknown⟩
  · rename_i hone
    cases ht
    refine ⟨⟨L, h.setRefcount hcover fun _ _ hc => hone ?_⟩, Recounted.setInfo⟩
    rw [← UInt32.sub_add_cancel (s.info (pa / PAGE_SIZE)).refcount 1, hc, UInt32.zero_add]

/-! ### Regions -/

theorem Inv.addFrame (h : Inv whole A NoHand s L) (hf : ¬A f) (hknown : s.known f) (hn : n < MAX_NODES) :
    Inv whole (fun g => A g ∨ g = f) NoHand (s.addFrame n f) (L.set n 0 (f :: L n 0)) := by
  have hout : ¬L.Covers f := fun ⟨_, _, _, he, hin⟩ => hf (h.page he hin).1
  -- the page is in hand until it is pushed
  have hhand : Inv whole (fun g => A g ∨ g = f) (InBlock f 0)
      (s.setInfo f { s.info f with refcount := 0, flags := ⟨false, true⟩, order := 0, numaNode := n }) L := by
    refine h.setInfo hout .inl Or.symm (fun _ => hknown) (fun _ => hn) False.elim (fun hg => ?_)
      (fun _ => .inr rfl) (fun hfree => ?_) fun _ _ => .inl inBlock_self
    · exact .inl (inBlock_zero.mp hg)
    · cases hfree
  have hloose : Loose (s.setInfo f { s.info f with refcount := 0, flags := ⟨false, true⟩, order := 0, numaNode := n })
      n f 0 := by
    refine ⟨hn, by decide, Nat.one_dvd f, fun {g} hg => ?_⟩
    rw [inBlock_zero.mp hg, info_setInfo_self]
    exact ⟨rfl, rfl⟩
  rw [State.addFrame, buddyPush_eq (s := s.setInfo f _) hknown, info_setInfo_self, setInfo_setInfo,
    ← setInfo_setInfo s f { s.info f with refcount := 0, flags := ⟨false, true⟩, order := 0, numaNode := n }]
  refine hhand.linked hloose (fun {g} => by simp [NoHand]) False.elim ?_ ?_ rfl rfl rfl
  · rw [info_setInfo_self]
  · rw [info_setInfo_self]

theorem Recounted.addFrame : Recounted s (s.addFrame n f) (Function.update (fun g => (s.info g).refcount) f 0) :=
  Recounted.setInfo.quiet Quiet.buddyPush

theorem Recounted.known {count : Nat → UInt32} (h : Recounted s t count) (g : Nat) : t.known g = s.known g := by
  unfold State.known
  rw [h.len]

theorem Inv.addFrames (hn : n < MAX_NODES) (fs : List Nat) : ∀ {A s L}, Inv whole A NoHand s L → fs.Nodup →
    (∀ f ∈ fs, ¬A f) → (∀ f ∈ fs, s.known f) →
    ∃ L', Inv whole (fun g => A g ∨ g ∈ fs) NoHand (fs.foldl (fun s f => s.addFrame n f) s) L' := by
  induction fs with
  | nil => exact fun h _ _ _ => ⟨_, h.added_congr fun g => by simp⟩
  | cons f fs ih =>
    intro A s L h hnodup hnew hknown
    obtain ⟨hnot, hnodup⟩ := nodup_cons.mp hnodup
    have hadd := h.addFrame (hnew f mem_cons_self) (hknown f mem_cons_self) hn
    have hnew' : ∀ g ∈ fs, ¬(A g ∨ g = f) := fun g hg hor =>
      hor.elim (hnew g (mem_cons_of_mem _ hg)) fun heq => hnot (heq ▸ hg)
    obtain ⟨L', hinv⟩ := ih hadd hnodup hnew' fun g hg =>
      (Recounted.addFrame.known g).trans (hknown g (mem_cons_of_mem _ hg))
    exact ⟨L', hinv.added_congr fun g => by rw [mem_cons, or_assoc]⟩

theorem Recounted.addFrames (fs : List Nat) : ∀ s, Recounted s (fs.foldl (fun s f => s.addFrame n f) s)
    fun g => if g ∈ fs then 0 else (s.info g).refcount := by
  induction fs with
  | nil => exact fun s => (Recounted.refl s).congr fun g => by simp
  | cons f fs ih =>
    intro s
    have hadd := Recounted.addFrame (s := s) (n := n) (f := f)
    refine (hadd.trans (ih (s.addFrame n f))).congr fun g => ?_
    rw [hadd.refcount g]
    by_cases hg : g = f
    · simp [hg]
    · simp [hg]

structure Prepared (A : Nat → Prop) (s t : State) : Prop where
  table : t.ready = false → t.len = 0
  bootFree : t.bootFree = s.bootFree
  info : ∀ {g}, A g → t.info g = s.info g
  bump : s.bump ≤ t.bump
  pool : s.bump ≤ POOL_PAGES → t.bump ≤ POOL_PAGES

theorem Prepared.refl (hlen : s.ready = false → s.len = 0) : Prepared A s s :=
  ⟨hlen, rfl, fun _ => rfl, le_refl _, id⟩

theorem Inv.ensurePageInfoTable (h : Inv whole A NoHand s L) (hlen : s.ready = false → s.len = 0)
    (ht : s.ensurePageInfoTable m = some t) : Inv whole A NoHand t L ∧ Prepared A s t := by
  unfold State.ensurePageInfoTable at ht
  split at ht
  · cases ht
    exact ⟨h, Prepared.refl hlen⟩
  rename_i hready
  have hA : ∀ {g}, ¬A g := by
    intro g hg
    have hknown := h.known hg
    rw [State.known, hlen (Bool.eq_false_of_not_eq_true hready)] at hknown
    simp at hknown
  have hL : ∀ {n k f}, f ∉ L n k := fun hf => hA (h.page hf inBlock_self).1
  -- all lists are empty, so that a table of zeros fits them
  have hinv : ∀ u : State, u.info = (fun _ => PageInfo.zero) → u.heads = s.heads → u.freePages = s.freePages →
      Inv whole A NoHand u L := fun u hinfo hheads hpages => {
    chain := fun n k => by
      rw [hheads]
      exact (h.chain n k).congr fun f hf => absurd hf hL
    nodup := h.nodup
    bound := h.bound
    aligned := h.aligned
    page := fun hf => absurd hf hL
    block := fun hf => absurd hf hL
    apart := h.apart
    hand := False.elim
    known := fun hg => absurd hg hA
    node := fun hg => absurd hg hA
    flag := fun _ {g} hfree => by
      rw [hinfo] at hfree
      cases hfree
    count := fun hw n => by rw [hpages, h.count hw n]
    cover := fun _ {g} hg => absurd hg hA }
  dsimp only at ht
  split at ht
  · rename_i hroom
    cases ht
    exact ⟨hinv _ rfl rfl rfl, nofun, rfl, fun hg => absurd hg hA, Nat.le_add_right _ _, fun _ => hroom⟩
  split at ht
  · cases ht
    exact ⟨hinv _ rfl rfl rfl, nofun, rfl, fun hg => absurd hg hA, le_refl _, id⟩
  · cases ht

/-- A region with the frames `fs` has been added: those of the kernel and those beyond the table are passed over. -/
structure Grown (whole : Prop) (A : Nat → Prop) (lay : Layout) (s t : State) (fs : List Nat) : Prop where
  inv : ∃ L, Inv whole (fun g => A g ∨ (g ∈ fs ∧ t.usable lay g = true)) NoHand t L
  table : t.ready = false → t.len = 0
  bootFree : t.bootFree = s.bootFree
  old : ∀ {g}, A g → (t.info g).refcount = (s.info g).refcount
  new : ∀ {g}, g ∈ fs → t.usable lay g = true → (t.info g).refcount = 0
  bump : s.bump ≤ t.bump
  pool : s.bump ≤ POOL_PAGES → t.bump ≤ POOL_PAGES

theorem usable_congr (lay : Layout) (hlen : t.len = s.len) (g : Nat) : t.usable lay g = s.usable lay g := by
  unfold State.usable State.known
  rw [hlen]

theorem framesOf_eq_nil {base size : Nat} (h : base + size ≤ (base + PAGE_SIZE - 1) / PAGE_SIZE * PAGE_SIZE) :
    framesOf base size = [] := by
  have hdiv := Nat.div_le_of_le_mul (Nat.mul_comm .. ▸ h)
  simp [framesOf, Nat.sub_eq_zero_of_le hdiv]

theorem Prepared.addFrames {u : State} (h : Inv whole A NoHand u L) (hp : Prepared A s u) (hn : n < MAX_NODES)
    {fs : List Nat} (hnodup : fs.Nodup) (hnew : ∀ g ∈ fs, ¬A g) :
    Grown whole A lay s ((fs.filter (u.usable lay)).foldl (fun s f => s.addFrame n f) u) fs := by
  have hcount := Recounted.addFrames (n := n) (fs.filter (u.usable lay)) u
  have husable := usable_congr lay hcount.len
  have hmem : ∀ {g}, g ∈ fs.filter (u.usable lay) → ¬A g ∧ u.known g := by
    intro g hg
    obtain ⟨hg, hu⟩ := mem_filter.mp hg
    simp only [State.usable, decide_eq_true_eq] at hu
    exact ⟨hnew g hg, hu.2⟩
  obtain ⟨L', hinv⟩ := h.addFrames hn _ (hnodup.filter _) (fun g hg => (hmem hg).1) fun g hg => (hmem hg).2
  refine ⟨⟨L', hinv.added_congr fun g => ?_⟩, ?_, hcount.bootFree.trans hp.bootFree, fun {g} hg => ?_,
    fun {g} hg hu => ?_, hcount.bump ▸ hp.bump, hcount.bump ▸ hp.pool⟩
  · rw [mem_filter, husable]
  · rw [hcount.ready, hcount.len]
    exact hp.table
  · rw [hcount.refcount g, if_neg fun hg' => (hmem hg').1 hg, hp.info hg]
  · rw [hcount.refcount g, if_pos (mem_filter.mpr ⟨hg, husable g ▸ hu⟩)]

theorem Inv.pmmAddRegionNode {base size : Nat} (h : Inv whole A NoHand s L) (hlen : s.ready = false → s.len = 0)
    (hn : n < MAX_NODES) (hnew : ∀ g ∈ framesOf base size, ¬A g) (ht : s.pmmAddRegionNode lay base size n = some t) :
    Grown whole A lay s t (framesOf base size) := by
  unfold State.pmmAddRegionNode at ht
  dsimp only at ht
  split at ht
  · rename_i hempty
    cases ht
    rw [framesOf_eq_nil hempty]
    exact ⟨⟨L, h.added_congr fun g => by simp⟩, hlen, rfl, fun _ => rfl, nofun, le_refl _, id⟩
  obtain ⟨u, hu, ht⟩ := Option.bind_eq_some_iff.mp ht
  rw [if_pos (.inr hn)] at ht
  cases ht
  have hprep : Inv whole A NoHand u L ∧ Prepared A s u := by
    split at hu
    · exact h.ensurePageInfoTable hlen hu
    · cases hu
      exact ⟨h, Prepared.refl hlen⟩
  obtain ⟨hinv, hp⟩ := hprep
  have hnodup : (framesOf base size).Nodup := nodup_range'
  refine Prepared.addFrames (L := L) ?_ ?_ hn hnodup hnew
  · exact hinv.rest rfl rfl rfl rfl
  · exact { hp with }

end

end Moxide.Pmm
