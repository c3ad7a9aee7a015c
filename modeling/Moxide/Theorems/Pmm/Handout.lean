import Moxide.Theorems.Pmm.Runs

/-! No page is handed out twice, as long as no counter of references overflows. -/

namespace Moxide.Pmm
open Lib Option
open State
open Function (update update_of_ne update_self)

/-- The calls of a run: allocations once a region has been added, and references to the pages of regions. -/
def World.proper (w : World) : Call → Bool
  | .addRegion base size n => w.fits base size n
  | .allocPage _ | .allocPageOnNode _ _ | .allocPagesContig _ _ => w.pmm.live
  | .getPage pa | .freePage pa => pa % PAGE_SIZE = 0 ∧ w.added (pa / PAGE_SIZE) ∧ 0 < w.held (pa / PAGE_SIZE)

def World.countable (w : World) : Call → Bool
  | .getPage pa => (w.pmm.info (pa / PAGE_SIZE)).refcount ≠ 0xFFFFFFFF
  | _ => true

/-- The blocks on the free lists are aligned, apart from each other and from the pages that are held, and an allocation
    returns pages that nobody holds. -/
structure Exclusive (lay : Layout) (w : World) (L : Lists) : Prop where
  linked : Linked w.pmm L
  once : ∀ n k, (L n k).Nodup
  apart : ∀ {n k f m j e g}, f ∈ L n k → e ∈ L m j → InBlock f k g → InBlock e j g → n = m ∧ k = j ∧ f = e
  aligned : ∀ {n k f}, f ∈ L n k → 2 ^ k ∣ f
  free : ∀ {n k f g}, f ∈ L n k → InBlock f k g → w.held g = 0
  fresh : w.pmm.live = true → ∀ {c count f t}, c.asks = some count → w.pmm.exec lay c = some (some f, t) →
    ∀ {g}, f ≤ g ∧ g < f + count → w.held g = 0

structure Counted (lay : Layout) (w : World) : Prop where
  sound : Sound False lay w
  count : ∀ {g}, w.added g = true → (w.pmm.info g).refcount.toNat = w.held g
  pool : ∀ {g}, w.added g = false → 0 < w.held g → lay.poolBase ≤ g ∧ g < lay.poolBase + w.pmm.bump
  bump : w.pmm.bump ≤ POOL_PAGES

section
variable {lay : Layout} {w w' : World} {t : State} {g : Nat}

theorem Counted.boot : Counted lay World.boot := ⟨Sound.boot, nofun, nofun, Nat.zero_le _⟩

section
variable (h : Counted lay w)
include h

theorem Counted.held_eq_zero (hadd : w.added g) (hzero : (w.pmm.info g).refcount = 0) : w.held g = 0 := by
  rw [← h.count hadd, hzero]
  rfl

theorem Counted.kernel (hadd : w.added g = false) (hheld : 0 < w.held g) : lay.isKernelPage g := by
  have hpool := h.pool hadd hheld
  have hbump := h.bump
  exact lay.isKernelPage_of_pool hpool.1 (by omega)

theorem Counted.next (hlt : w.pmm.bump < POOL_PAGES) :
    w.added (lay.poolBase + w.pmm.bump) = false ∧ w.held (lay.poolBase + w.pmm.bump) = 0 := by
  have hkern := lay.isKernelPage_of_pool (f := lay.poolBase + w.pmm.bump) (by omega) (by omega)
  have hadd : w.added (lay.poolBase + w.pmm.bump) = false := by
    refine Bool.eq_false_of_not_eq_true fun hadd => ?_
    rw [h.sound.kernel hadd] at hkern
    cases hkern
  refine ⟨hadd, Nat.eq_zero_of_not_pos fun hheld => ?_⟩
  exact absurd (h.pool hadd hheld).2 (lt_irrefl _)

theorem Counted.fresh (hlive : w.pmm.live) {count f : Nat}
    (hout : Outcome False (fun g => w.added g) lay w.pmm t count (some f)) (hg : f ≤ g ∧ g < f + count) :
    w.held g = 0 := by
  rcases hout.2 with ⟨e, he, hgranted⟩ | hpooled
  · cases he
    exact h.held_eq_zero (hgranted.page hg).1 (hgranted.page hg).2
  rcases hpooled.frame hlive with ⟨hnone, -⟩ | ⟨hsome, hone, -, hlt⟩
  · cases hnone
  · cases hsome
    obtain rfl : g = lay.poolBase + w.pmm.bump := by omega
    exact (h.next hlt).2

theorem Counted.exclusive : ∃ L, Exclusive lay w L := by
  obtain ⟨L, hinv⟩ := h.sound.inv
  refine ⟨L, hinv.chain, hinv.nodup, fun hf he hg hg' => ?_, hinv.aligned, fun hf hg => ?_,
    fun hlive {c count f t} hc ht {g} hg => h.fresh hlive (h.sound.alloc hc ht) hg⟩
  · obtain ⟨rfl, rfl⟩ := hinv.apart hf he hg hg'
    exact ⟨(hinv.unique hf he).1, rfl, rfl⟩
  · exact h.held_eq_zero (hinv.page hf hg).1 (hinv.page hf hg).2.2.2

/-! ### Steps -/

theorem Counted.valid {c : Call} (hc : w.proper c) : w.valid lay c := by
  have hpage : ∀ {pa}, pa % PAGE_SIZE = 0 ∧ w.added (pa / PAGE_SIZE) ∧ 0 < w.held (pa / PAGE_SIZE) →
      w.allocated lay pa := by
    rintro pa ⟨halign, hadd, hheld⟩
    refine World.allocated_iff.mpr ⟨halign, .inl ⟨hadd, fun hzero => ?_⟩⟩
    rw [h.held_eq_zero hadd hzero] at hheld
    exact lt_irrefl 0 hheld
  cases c with
  | addRegion base size n => exact hc
  | allocPage preferred => rfl
  | allocPageOnNode n preferred => rfl
  | allocPagesContig n preferred => rfl
  | getPage pa => exact hpage (of_decide_eq_true hc)
  | freePage pa => exact hpage (of_decide_eq_true hc)

theorem Counted.addRegion {base size n : Nat} (hsound : Sound False lay w')
    (hgrown : Grown False (fun g => w.added g) lay w.pmm w'.pmm (framesOf base size))
    (hadded : w'.added = w.grow lay w'.pmm (.addRegion base size n)) (hheld : w'.held = w.held) : Counted lay w' := by
  refine ⟨hsound, fun {g} hg => ?_, fun {g} hg hpos => ?_, hgrown.pool h.bump⟩
  · rw [hheld]
    cases hold : w.added g with
    | true =>
      rw [hgrown.old hold]
      exact h.count hold
    | false =>
      rw [hadded, World.grow_addRegion] at hg
      obtain ⟨hmem, hu⟩ := hg.resolve_left (by simp [hold])
      rw [hgrown.new hmem hu]
      -- a page that is held already would be the kernel's, which is not added
      refine (Nat.eq_zero_of_not_pos fun hpos => ?_).symm
      rw [State.usable, h.kernel hold hpos] at hu
      simp at hu
  · have hold : w.added g = false := by
      refine Bool.eq_false_of_not_eq_true fun hold => ?_
      rw [hadded, World.grow_addRegion.mpr (.inl hold)] at hg
      cases hg
    rw [hheld] at hpos
    have hpool := h.pool hold hpos
    have hbump := hgrown.bump
    omega

theorem Counted.alloc (hlive : w.pmm.live) {count : Nat} {r : Option Nat} (hsound : Sound False lay w')
    (hout : Outcome False (fun g => w.added g) lay w.pmm w'.pmm count r) (hadded : w'.added = w.added)
    (hheld : w'.held = w.grant count r) : Counted lay w' := by
  have hfresh := fun f (hr : r = some f) g => h.fresh (g := g) hlive (hr ▸ hout)
  rcases hout.2 with ⟨f, rfl, hgranted⟩ | hpooled
  · refine ⟨hsound, fun {g} hg => ?_, fun {g} hg hpos => ?_, hgranted.rest.bump ▸ h.bump⟩
    · rw [hadded] at hg
      rw [hheld, hgranted.rest.refcount g, World.grant]
      dsimp only
      split
      · rename_i hin
        rw [hfresh f rfl g hin]
        rfl
      · exact h.count hg
    · rw [hadded] at hg
      rw [hheld, World.grant] at hpos
      dsimp only at hpos
      split at hpos
      · rename_i hin
        rw [(hgranted.page hin).1] at hg
        cases hg
      · rw [hgranted.rest.bump]
        exact h.pool hg hpos
  · have hinfo : w'.pmm.info = w.pmm.info := by rw [hpooled.state]
    rcases hpooled.frame hlive with ⟨rfl, hbump⟩ | ⟨rfl, rfl, hbump, hlt⟩
    · refine ⟨hsound, fun {g} hg => ?_, fun {g} hg hpos => ?_, hbump ▸ h.bump⟩
      · rw [hinfo, hheld]
        exact h.count (hadded ▸ hg)
      · rw [hbump]
        rw [hheld] at hpos
        exact h.pool (hadded ▸ hg) hpos
    obtain ⟨hnot, -⟩ := h.next hlt
    refine ⟨hsound, fun {g} hg => ?_, fun {g} hg hpos => ?_, by omega⟩
    · rw [hadded] at hg
      rw [hinfo, hheld, World.grant]
      dsimp only
      split
      · obtain rfl : g = lay.poolBase + w.pmm.bump := by omega
        rw [hnot] at hg
        cases hg
      · exact h.count hg
    · rw [hheld, World.grant] at hpos
      dsimp only at hpos
      split at hpos
      · omega
      · have hpool := h.pool (hadded ▸ hg) hpos
        omega

theorem Counted.recount {f c : Nat} {count : UInt32} (hsound : Sound False lay w')
    (hadd : w.added f) (hrest : Recounted w.pmm w'.pmm (update (fun g => (w.pmm.info g).refcount) f count))
    (hadded : w'.added = w.added) (hheld : w'.held = update w.held f c) (hcount : count.toNat = c) :
    Counted lay w' := by
  refine ⟨hsound, fun {g} hg => ?_, fun {g} hg hpos => ?_, hrest.bump ▸ h.bump⟩
  · rw [hadded] at hg
    rw [hheld, hrest.refcount g]
    by_cases heq : g = f
    · rw [heq, update_self, update_self, hcount]
    · rw [update_of_ne heq, update_of_ne heq]
      exact h.count hg
  · rw [hadded] at hg
    have hne : g ≠ f := by
      rintro rfl
      rw [hadd] at hg
      cases hg
    rw [hheld, update_of_ne hne] at hpos
    rw [hrest.bump]
    exact h.pool hg hpos

end

theorem refcount_add_one {c : UInt32} (hc : c ≠ 0xFFFFFFFF) : (c + 1).toNat = c.toNat + 1 := by
  have hne : c.toNat ≠ 4294967295 := fun h => hc (UInt32.toNat_inj.mp h)
  have hlt := c.toNat_lt
  rw [UInt32.toNat_add, UInt32.toNat_one]
  omega

theorem refcount_sub_one {c : UInt32} (hc : 0 < c.toNat) : (c - 1).toNat = c.toNat - 1 := by
  have hle : (1 : UInt32) ≤ c := UInt32.le_iff_toNat_le.mpr hc
  rw [UInt32.toNat_sub_of_le _ _ hle, UInt32.toNat_one]

theorem Counted.step (h : Counted lay w) {c : Call} (hc : w.proper c) (hroom : w.countable c)
    (hs : w.step lay c = some w') : Counted lay w' := by
  have hvalid := h.valid hc
  have hsound := h.sound.step hvalid False.elim hs
  obtain ⟨r, ht, hadded, hheld⟩ := World.step_eq hs
  cases c with
  | addRegion base size n => exact h.addRegion hsound (h.sound.addRegion hvalid ht) hadded hheld
  | allocPage preferred => exact h.alloc hc hsound (h.sound.alloc rfl ht) hadded hheld
  | allocPageOnNode n preferred => exact h.alloc hc hsound (h.sound.alloc rfl ht) hadded hheld
  | allocPagesContig n preferred => exact h.alloc hc hsound (h.sound.alloc rfl ht) hadded hheld
  | getPage pa =>
    obtain ⟨halign, hadd, -⟩ := of_decide_eq_true hc
    obtain ⟨L, hinv⟩ := h.sound.inv
    have hpmm : w.pmm.getPage pa = w'.pmm := congrArg Prod.snd (some.inj ht)
    rw [State.getPage, if_pos ⟨halign, hinv.known hadd⟩] at hpmm
    refine h.recount hsound hadd (hpmm ▸ Recounted.setInfo) hadded hheld ?_
    rw [refcount_add_one (of_decide_eq_true hroom), h.count hadd]
  | freePage pa =>
    obtain ⟨-, hadd, hpos⟩ := of_decide_eq_true hc
    rw [← h.count hadd] at hpos
    have hu := of_exec ht
    have hout : (w.pmm.info (pa / PAGE_SIZE)).refcount ≠ 0 := fun hzero => by
      rw [hzero] at hpos
      exact lt_irrefl 0 hpos
    refine h.recount hsound hadd (h.sound.freePage hadd hout False.elim hu).2 hadded hheld ?_
    rw [refcount_sub_one hpos, h.count hadd]

end

/-- In a run in which every reference can be counted, no page is handed out twice. -/
theorem pages_exclusive (lay : Layout) {w : World}
    (hr : Reach (fun w c w' => w.step lay c = some w') (fun w c => (w.proper c && w.countable c) = true) .boot w) :
    ∃ L, Exclusive lay w L := by
  have hcounted : Counted lay w := by
    refine hr.invariant Counted.boot fun w c w' h hok hs => ?_
    obtain ⟨hproper, hroom⟩ := Bool.and_eq_true_iff.mp hok
    exact h.step hproper hroom hs
  exact hcounted.exclusive

def trimmedProper : Option World :=
  Reach.run (World.step highKernel) (fun w c => w.proper c && w.countable c) .boot trimCalls

theorem trimmedProper_held :
    trimmedProper.map (fun w => (w.pmm.freeList 0 0, (List.range 8).map w.held)) =
      some ([7], [0, 0, 0, 0, 1, 1, 1, 0]) := by
  decide +kernel

theorem pages_exclusive_trimmed : ∃ w, trimmedProper = some w ∧ w.pmm.freeList 0 0 = [7] ∧
    ∃ L, Exclusive highKernel w L := by
  obtain ⟨w, hw, hheld⟩ := map_eq_some_iff.mp trimmedProper_held
  exact ⟨w, hw, congrArg Prod.fst hheld, pages_exclusive highKernel (Reach.of_run trimCalls .start hw)⟩

/-! ### A counter that overflows -/

def World.withRefs (w : World) (f n : Nat) : World :=
  ⟨w.pmm.setInfo f { w.pmm.info f with refcount := (w.pmm.info f).refcount + UInt32.ofNat n }, w.added,
    update w.held f (w.held f + n)⟩

theorem World.withRefs_zero (w : World) (f : Nat) : w.withRefs f 0 = w := by
  simp [World.withRefs, State.setInfo]

theorem World.step_getPage {w : World} {lay : Layout} {f : Nat} (hf : w.pmm.known f) (n : Nat) :
    (w.withRefs f n).step lay (.getPage (f * PAGE_SIZE)) = some (w.withRefs f (n + 1)) := by
  have hdiv : f * PAGE_SIZE / PAGE_SIZE = f := Nat.mul_div_cancel f (by decide)
  have hmod : f * PAGE_SIZE % PAGE_SIZE = 0 := Nat.mul_mod_left f PAGE_SIZE
  have hknown : (w.withRefs f n).pmm.known f := hf
  simp only [World.step, State.exec, State.getPage, hdiv, hmod, hknown, World.grow, World.hold, map_some]
  simp [World.withRefs, State.setInfo, UInt32.ofNat_add, add_assoc]

theorem reach_withRefs {lay : Layout} {w : World} {f : Nat}
    (hr : Reach (fun w c w' => w.step lay c = some w') (fun w c => w.proper c) .boot w)
    (hf : w.pmm.known f) (hadd : w.added f) (hheld : 0 < w.held f) (n : Nat) :
    Reach (fun w c w' => w.step lay c = some w') (fun w c => w.proper c) .boot (w.withRefs f n) := by
  induction n with
  | zero =>
    rw [w.withRefs_zero f]
    exact hr
  | succ n ih =>
    refine .step (.getPage (f * PAGE_SIZE)) ih ?_ (World.step_getPage hf n)
    have hdiv : f * PAGE_SIZE / PAGE_SIZE = f := Nat.mul_div_cancel f (by decide)
    simp [World.proper, hdiv, World.withRefs, hadd]
    omega

/-- A page is taken, and 2^32 further references to it. Giving one of them back frees it. -/
def shareCalls : List Call := [.addRegion (4 * PAGE_SIZE) PAGE_SIZE 0, .allocPage 0]

def shared : Option World := Reach.run (World.step highKernel) World.proper .boot shareCalls

def overflowed (w : World) : Option World :=
  Reach.run (World.step highKernel) World.proper (w.withRefs 4 (2 ^ 32)) [.freePage (4 * PAGE_SIZE)]

theorem shared_pmm : shared.map (fun w => (w.pmm.known 4, w.added 4, w.held 4)) = some (true, true, 1) := by
  decide +kernel

theorem overflowed_pmm :
    (shared.bind overflowed).map (fun w => (w.held 4, w.pmm.live, w.pmm.heads 0 0, (w.pmm.allocPage highKernel 0).1)) =
      some (2 ^ 32, true, some 4, some 4) := by
  decide +kernel

theorem page_shared : ∃ w, Reach (fun w c w' => w.step highKernel c = some w') (fun w c => w.proper c = true) .boot w ∧
    (w.held 4 = 2 ^ 32 ∧ w.pmm.live = true ∧ (w.pmm.allocPage highKernel 0).1 = some 4) ∧
    ¬∃ L, Exclusive highKernel w L := by
  obtain ⟨w, hw, hpmm⟩ := map_eq_some_iff.mp overflowed_pmm
  obtain ⟨v, hv, hw⟩ := bind_eq_some_iff.mp hw
  have hshared := shared_pmm
  rw [hv] at hshared
  simp only [map_some, some.injEq, Prod.mk.injEq] at hshared hpmm
  obtain ⟨hknown, hadd, hone⟩ := hshared
  obtain ⟨hheld, hlive, hhead, halloc⟩ := hpmm
  have hr := reach_withRefs (Reach.of_run shareCalls .start hv) hknown hadd (by omega) (2 ^ 32)
  refine ⟨w, Reach.of_run _ hr hw, ⟨hheld, hlive, halloc⟩, fun ⟨L, hL⟩ => ?_⟩
  -- the page is the first of a free list
  have hchain := hL.linked 0 0
  rw [hhead] at hchain
  obtain ⟨l, hl, -⟩ := hchain.eq_cons
  have hzero := hL.free (n := 0) (k := 0) (hl ▸ List.mem_cons_self) inBlock_self
  rw [hheld] at hzero
  cases hzero

/-! The allocator as its callers use it, one frame at a time. -/

/-- The references are counted, the table of frames is no longer than there are frames, and only frames of regions have
    counters. -/
structure Stock (lay : Layout) (w : World) : Prop where
  counted : Counted lay w
  len : w.pmm.len ≤ MAX_FRAMES
  plain : ∀ {g}, w.added g = false → (w.pmm.info g).refcount = 0

section
variable {lay : Layout} {w w' : World} {s t : State} {f : Nat}

theorem Stock.boot : Stock lay World.boot := ⟨Counted.boot, Nat.zero_le _, fun _ => rfl⟩

theorem ensurePageInfoTable_rest {m : Nat} (hm : m < MAX_FRAMES) (ht : s.ensurePageInfoTable m = some t) :
    (s.len ≤ MAX_FRAMES → t.len ≤ MAX_FRAMES) ∧ ∀ g, (t.info g).refcount = (s.info g).refcount ∨
    (t.info g).refcount = 0 := by
  unfold State.ensurePageInfoTable at ht
  split at ht
  · cases ht
    exact ⟨id, fun _ => .inl rfl⟩
  dsimp only at ht
  split at ht
  · cases ht
    exact ⟨fun _ => hm, fun _ => .inr rfl⟩
  split at ht
  · cases ht
    exact ⟨fun _ => (by decide : EMERGENCY_FRAMES ≤ MAX_FRAMES), fun _ => .inr rfl⟩
  · cases ht

theorem pmmAddRegionNode_rest {base size n : Nat} (ht : s.pmmAddRegionNode lay base size n = some t) :
    (s.len ≤ MAX_FRAMES → t.len ≤ MAX_FRAMES) ∧ (s.live → t.live) ∧
      ∀ g, (t.info g).refcount = (s.info g).refcount ∨ (t.info g).refcount = 0 := by
  unfold State.pmmAddRegionNode at ht
  dsimp only at ht
  split at ht
  · cases ht
    exact ⟨id, id, fun _ => .inl rfl⟩
  obtain ⟨u, hu, ht⟩ := bind_eq_some_iff.mp ht
  have hprep : (s.len ≤ MAX_FRAMES → u.len ≤ MAX_FRAMES) ∧
      ∀ g, (u.info g).refcount = (s.info g).refcount ∨ (u.info g).refcount = 0 := by
    split at hu
    · rename_i hm
      exact ensurePageInfoTable_rest hm hu
    · cases hu
      exact ⟨id, fun _ => .inl rfl⟩
  obtain ⟨-, ht⟩ := ite_none_right_eq_some.mp ht
  cases ht
  have hcount := fun fs => Recounted.addFrames (n := n) fs
    { u with nodeCount := if n < MAX_NODES then max u.nodeCount (n + 1) else u.nodeCount, live := true }
  refine ⟨fun hlen => ?_, fun _ => ?_, fun g => ?_⟩
  · rw [(hcount _).len]
    exact hprep.1 hlen
  · rw [(hcount _).live]
  · rw [(hcount _).refcount]
    by_cases hmem : g ∈ (framesOf base size).filter (State.usable lay
        { u with nodeCount := if n < MAX_NODES then max u.nodeCount (n + 1) else u.nodeCount, live := true })
    · exact .inr (if_pos hmem)
    · rw [if_neg hmem]
      exact hprep.2 g

theorem Outcome.keeps {A : Nat → Prop} {count : Nat} {r : Option Nat} (h : Outcome False A lay s t count r) :
    t.len = s.len ∧ t.live = s.live ∧ ∀ g, ¬A g → (t.info g).refcount = (s.info g).refcount := by
  rcases h.2 with ⟨f, -, hgranted⟩ | hpooled
  · refine ⟨hgranted.rest.len, hgranted.rest.live, fun g hg => ?_⟩
    rw [hgranted.rest.refcount g, if_neg fun hin => hg (hgranted.page hin).1]
  · rw [hpooled.state]
    exact ⟨rfl, rfl, fun _ _ => rfl⟩

theorem Stock.keep (h : Stock lay w) (hcounted : Counted lay w') (hadded : w'.added = w.added)
    (hkeeps : w'.pmm.len = w.pmm.len ∧ w'.pmm.live = w.pmm.live ∧
      ∀ g, ¬w.added g → (w'.pmm.info g).refcount = (w.pmm.info g).refcount) :
    Stock lay w' ∧ (w.pmm.live → w'.pmm.live) := by
  obtain ⟨hlen, hlive, hinfo⟩ := hkeeps
  refine ⟨⟨hcounted, hlen ▸ h.len, fun {g} hg => ?_⟩, fun hl => hlive.trans hl⟩
  rw [hadded] at hg
  rw [hinfo g (by simp [hg]), h.plain hg]

theorem Recounted.keeps {c : UInt32} (hadd : w.added f)
    (h : Recounted w.pmm t (update (fun g => (w.pmm.info g).refcount) f c)) :
    t.len = w.pmm.len ∧ t.live = w.pmm.live ∧ ∀ g, ¬w.added g → (t.info g).refcount = (w.pmm.info g).refcount := by
  refine ⟨h.len, h.live, fun g hg => ?_⟩
  rw [h.refcount g, update_of_ne]
  rintro rfl
  exact hg hadd

theorem Stock.step (h : Stock lay w) {c : Call} (hc : w.proper c) (hroom : w.countable c)
    (hs : w.step lay c = some w') : Stock lay w' ∧ (w.pmm.live → w'.pmm.live) := by
  have hcounted := h.counted.step hc hroom hs
  obtain ⟨r, ht, hadded, -⟩ := World.step_eq hs
  cases c with
  | addRegion base size n =>
    have hu := of_exec ht
    obtain ⟨hlen, hlive, hinfo⟩ := pmmAddRegionNode_rest hu
    refine ⟨⟨hcounted, hlen h.len, fun {g} hg => ?_⟩, hlive⟩
    have hold : w.added g = false := by
      refine Bool.eq_false_of_not_eq_true fun hold => ?_
      rw [hadded, World.grow_addRegion.mpr (.inl hold)] at hg
      cases hg
    rcases hinfo g with hsame | hzero
    · rw [hsame, h.plain hold]
    · exact hzero
  | allocPage preferred => exact h.keep hcounted hadded (h.counted.sound.alloc rfl ht).keeps
  | allocPageOnNode n preferred => exact h.keep hcounted hadded (h.counted.sound.alloc rfl ht).keeps
  | allocPagesContig n preferred => exact h.keep hcounted hadded (h.counted.sound.alloc rfl ht).keeps
  | getPage pa =>
    obtain ⟨-, hadd, -⟩ := of_decide_eq_true hc
    have hpmm : w.pmm.getPage pa = w'.pmm := congrArg Prod.snd (some.inj ht)
    refine h.keep hcounted hadded ?_
    obtain ⟨c, hcount⟩ := Recounted.getPage (s := w.pmm) pa
    exact hpmm ▸ hcount.keeps hadd
  | freePage pa =>
    obtain ⟨-, hadd, hpos⟩ := of_decide_eq_true hc
    have hu := of_exec ht
    have hout : (w.pmm.info (pa / PAGE_SIZE)).refcount ≠ 0 := fun hzero => by
      rw [h.counted.held_eq_zero hadd hzero] at hpos
      exact lt_irrefl 0 hpos
    exact h.keep hcounted hadded (Recounted.keeps hadd (h.counted.sound.freePage hadd hout False.elim hu).2)

theorem Stock.lt (h : Stock lay w) (hphys : lay.kernelEnd ≤ 2 ^ 52) (hheld : 0 < w.held f) : f < 2 ^ 40 := by
  cases hadd : w.added f with
  | true =>
    obtain ⟨L, hinv⟩ := h.counted.sound.inv
    have hknown := hinv.known hadd
    have hlen := h.len
    simp only [State.known, decide_eq_true_eq] at hknown
    unfold MAX_FRAMES at hlen
    omega
  | false =>
    have hpool := h.counted.pool hadd hheld
    have hbump := h.counted.bump
    have hend := lay.pool_end
    unfold PAGE_SIZE at hend
    omega

theorem Stock.reach (hr : Lib.Reach (fun w c w' => w.step lay c = some w')
    (fun w c => (w.proper c && w.countable c) = true) .boot w) : Stock lay w := by
  refine hr.invariant Stock.boot fun w c w' h hok hs => ?_
  obtain ⟨hproper, hroom⟩ := Bool.and_eq_true_iff.mp hok
  exact (h.step hproper hroom hs).1

theorem World.grant_some : w.grant 1 (some f) = update w.held f (w.held f + 1) := by
  funext g
  change (if f ≤ g ∧ g < f + 1 then w.held g + 1 else w.held g) = _
  by_cases hg : g = f
  · subst hg
    rw [if_pos (by omega), update_self]
  · rw [if_neg (by omega), update_of_ne hg]

theorem Stock.alloc (h : Stock lay w) (hlive : w.pmm.live) {n : Nat} {r : Option Nat}
    (ha : w.pmm.allocPage lay n = (r, t)) :
    Stock lay ⟨t, w.added, w.grant 1 r⟩ ∧ t.live ∧ ∀ f, r = some f → w.held f = 0 := by
  have hs : w.step lay (.allocPage n) = some ⟨t, w.added, w.grant 1 r⟩ := by
    simp only [World.step, State.exec, ha, map_some, World.grow, World.hold, State.Call.asks]
  have hproper : w.proper (.allocPage n) := hlive
  obtain ⟨hstock, hlive'⟩ := h.step hproper rfl hs
  refine ⟨hstock, hlive' hlive, ?_⟩
  rintro f rfl
  have hexec : w.pmm.exec lay (.allocPage n) = some (some f, t) := by rw [State.exec, ha]
  exact h.counted.fresh hlive (h.counted.sound.alloc rfl hexec) ⟨le_refl f, Nat.lt_succ_self f⟩

theorem Stock.free (h : Stock lay w) (hlive : w.pmm.live) (hheld : 0 < w.held f)
    (ht : w.pmm.freePage lay (f * PAGE_SIZE) = some t) :
    (w.added f ∧ Stock lay ⟨t, w.added, update w.held f (w.held f - 1)⟩ ∧ t.live) ∨
      (w.added f = false ∧ t = w.pmm) := by
  have hdiv : f * PAGE_SIZE / PAGE_SIZE = f := Nat.mul_div_cancel f (by decide)
  cases hadd : w.added f with
  | true =>
    have hs : w.step lay (.freePage (f * PAGE_SIZE)) =
        some ⟨t, w.added, update w.held f (w.held f - 1)⟩ := by
      simp only [World.step, State.exec, ht, map_some, World.grow, World.hold, hdiv]
    have hproper : w.proper (.freePage (f * PAGE_SIZE)) := by
      refine decide_eq_true ⟨Nat.mul_mod_left f PAGE_SIZE, ?_⟩
      rw [hdiv]
      exact ⟨hadd, hheld⟩
    obtain ⟨hstock, hlive'⟩ := h.step hproper rfl hs
    exact .inl ⟨rfl, hstock, hlive' hlive⟩
  | false =>
    refine .inr ⟨rfl, ?_⟩
    have hkernel := h.counted.kernel hadd hheld
    unfold State.freePage at ht
    simp only [hdiv, Nat.mul_mod_left, ne_eq, not_true_eq_false, if_false, hkernel, if_true] at ht
    split at ht
    · exact (some.inj ht).symm
    · cases ht

end

end Moxide.Pmm
