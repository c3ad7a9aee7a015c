import Moxide.Lib.Ring
import Moxide.Theorems.Pmm.Handout

/-! When a contiguous allocation succeeds. Frames are added one by one, and joined only as pages are freed. -/

namespace Moxide.Pmm
open Lib List Option
open State

def World.Free (w : World) (g : Nat) : Prop := w.added g = true ∧ (w.pmm.info g).refcount = 0

/-- A naturally aligned run of `2 ^ k` free frames of node `m`. -/
structure World.FreeRun (w : World) (m k f : Nat) : Prop where
  aligned : 2 ^ k ∣ f
  free : ∀ g, InBlock f k g → w.Free g ∧ (w.pmm.info g).numaNode = m

/-- Some node has a block of order `k` or more on its free lists. -/
def World.HasBlock (w : World) (k : Nat) : Prop :=
  ∃ m < max w.pmm.nodeCount 1, ∃ j, k ≤ j ∧ j < MAX_ORDER ∧ (w.pmm.heads m j).isSome

section
variable {lay : Layout} {w w' : World} {s t : State} {n k : Nat}

theorem tryOrders_isSome (ts : List Nat) : (tryOrders n k ts s).isSome ↔ ∃ j ∈ ts, (s.heads n j).isSome := by
  induction ts with
  | nil => simp [tryOrders]
  | cons j ts ih => cases hhead : s.heads n j <;> simp [tryOrders, buddyPop, hhead, ih]

theorem allocFrom_isSome (hk : k < MAX_ORDER) (ns : List Nat) :
    (s.allocFrom k ns).isSome ↔ ∃ m ∈ ns, ∃ j, k ≤ j ∧ j < MAX_ORDER ∧ (s.heads m j).isSome := by
  induction ns with
  | nil => simp [allocFrom]
  | cons m ns ih =>
    have hm : (s.buddyAllocOrderNode m k).isSome ↔ ∃ j, k ≤ j ∧ j < MAX_ORDER ∧ (s.heads m j).isSome := by
      rw [buddyAllocOrderNode, if_neg (not_le.mpr hk), tryOrders_isSome]
      simp only [mem_range'_1, Nat.add_sub_cancel' (le_of_lt hk), and_assoc]
    rw [exists_mem_cons_iff, ← ih, ← hm]
    cases h : s.buddyAllocOrderNode m k <;> simp [allocFrom, h]

theorem mem_nodesFrom {m preferred : Nat} : m ∈ s.nodesFrom preferred ↔ m < max s.nodeCount 1 := by
  unfold nodesFrom
  have hpos : 0 < max s.nodeCount 1 := lt_of_lt_of_le Nat.one_pos (Nat.le_max_right ..)
  generalize max s.nodeCount 1 = nodes at hpos
  simp only [List.mem_map, mem_range]
  constructor
  · rintro ⟨i, -, rfl⟩
    exact Nat.mod_lt _ hpos
  · intro hm
    obtain ⟨i, hi, heq⟩ := Ring.exists_delta preferred hm
    exact ⟨i, hi, heq⟩

theorem pmmAddRegionNode_live {base size : Nat} (ht : s.pmmAddRegionNode lay base size n = some t) :
    t.live ∨ t = s ∧ framesOf base size = [] := by
  unfold State.pmmAddRegionNode at ht
  dsimp only at ht
  split at ht
  · rename_i hempty
    cases ht
    exact .inr ⟨rfl, framesOf_eq_nil hempty⟩
  obtain ⟨u, -, ht⟩ := bind_eq_some_iff.mp ht
  obtain ⟨-, ht⟩ := ite_none_right_eq_some.mp ht
  cases ht
  exact .inl (Recounted.addFrames _ _).live

theorem Sound.live_step (h : Sound False lay w) (hl : ∀ g, w.added g → w.pmm.live) {c : Call}
    (hvalid : w.valid lay c) (hs : w.step lay c = some w') (g : Nat) (hg : w'.added g) :
    w'.pmm.live := by
  obtain ⟨r, ht, hadded, -⟩ := World.step_eq hs
  rw [hadded] at hg
  cases c with
  | addRegion base size n =>
    have hu := of_exec ht
    rcases pmmAddRegionNode_live hu with hlive | ⟨hsame, hnil⟩
    · exact hlive
    rcases World.grow_addRegion.mp hg with hold | ⟨hmem, -⟩
    · exact hsame ▸ hl g hold
    · rw [hnil] at hmem
      cases hmem
  | allocPage preferred | allocPageOnNode n preferred | allocPagesContig n preferred =>
    exact (h.alloc rfl ht).keeps.2.1.trans (hl g hg)
  | getPage pa =>
    have hpmm : w.pmm.getPage pa = w'.pmm := congrArg Prod.snd (some.inj ht)
    obtain ⟨c, hcount⟩ := Recounted.getPage (s := w.pmm) pa
    exact hpmm ▸ hcount.live.trans (hl g hg)
  | freePage pa =>
    have hu := of_exec ht
    rcases (World.allocated_iff.mp hvalid).2 with ⟨hadd, hout⟩ | ⟨-, hkern⟩
    · exact (h.freePage hadd hout False.elim hu).2.live.trans (hl g hg)
    · exact freePage_kernel hkern hu ▸ hl g hg

/-! ### Contiguous allocation -/

theorem orderFor_eq (hk : k < MAX_ORDER) (hle : n ≤ 2 ^ k) (hlt : ∀ j < k, 2 ^ j < n) : orderFor n = some k := by
  refine find?_range_eq_some.mpr ⟨decide_eq_true hle, mem_range.mpr (lt_trans hk (by decide)), fun j hj => ?_⟩
  simpa using hlt j hj

theorem allocPagesContig_eq (hlive : s.live) (hn : n ≠ 0) (hk : k < MAX_ORDER) (horder : orderFor n = some k)
    (preferred : Nat) : s.allocPagesContig lay n preferred = some ((s.allocFrom k (s.nodesFrom preferred)).elim
      (if n = 1 then s.allocPool lay else (none, s)) fun r => (some r.1, r.2.trim r.1 n (2 ^ k))) := by
  unfold State.allocPagesContig
  rw [if_neg hn]
  split
  · rename_i hone
    subst hone
    obtain rfl : 0 = k := some.inj ((by decide : orderFor 1 = some 0).symm.trans horder)
    rw [State.allocPage, if_pos hlive]
    cases s.allocFrom 0 (s.nodesFrom preferred) <;> rfl
  · rw [if_neg (by simp [hlive]), horder, map_some, if_neg (not_le.mpr hk)]
    cases s.allocFrom k (s.nodesFrom preferred) <;> rfl

end

/-- Where a run of free frames is large enough, frames are found exactly if some block is. No free frame is lost
    otherwise. -/
theorem contig_found (lay : Layout) {w : World}
    (hr : Reach (fun w c w' => w.step lay c = some w') (fun w c => w.valid lay c = true) .boot w) (n preferred : Nat) :
    (∀ m k f, n ≠ 0 → n ≤ 2 ^ k → (∀ j < k, 2 ^ j < n) → k < MAX_ORDER → w.FreeRun m k f →
      ((∃ base t, w.pmm.allocPagesContig lay n preferred = some (some base, t) ∧
        ∀ g, base ≤ g → g < base + n → w.Free g) ↔ w.HasBlock k)) ∧
    ∀ t, w.pmm.allocPagesContig lay n preferred = some (none, t) → ∀ g, { w with pmm := t }.Free g ↔ w.Free g := by
  obtain ⟨hsound, hlive⟩ := hr.invariant (I := fun w => Sound False lay w ∧ ∀ g, w.added g = true → w.pmm.live = true)
    ⟨Sound.boot, nofun⟩ fun w c w' h hc hs => ⟨h.1.step hc False.elim hs, h.1.live_step h.2 hc hs⟩
  refine ⟨fun m k f hn hle hlt hk hrun => ?_, fun t ht => ?_⟩
  · replace hlive := hlive f (hrun.free f inBlock_self).1.1
    have hblock : w.HasBlock k ↔ (w.pmm.allocFrom k (w.pmm.nodesFrom preferred)).isSome := by
      simp only [allocFrom_isSome hk, mem_nodesFrom, World.HasBlock]
    rw [hblock, allocPagesContig_eq hlive hn hk (orderFor_eq hk hle hlt)]
    cases hfrom : w.pmm.allocFrom k (w.pmm.nodesFrom preferred) with
    | some r =>
      obtain ⟨L, hinv⟩ := hsound.inv
      obtain ⟨-, m, htaken⟩ := hinv.allocFrom _ hfrom
      exact ⟨fun _ => rfl, fun _ => ⟨_, _, rfl, fun g hg hg' => htaken.granted.page ⟨hg, by omega⟩⟩⟩
    | none =>
      refine ⟨fun ⟨base, t, ht, hfree⟩ => ?_, nofun⟩
      -- only the pool can have a page, and its pages are the kernel's
      have hadd := (hfree base (le_refl _) (by omega)).1
      rw [elim_none] at ht
      split at ht
      · have hpooled := Pooled.allocPool (s := w.pmm) lay hsound.bootFree
        rw [some.inj ht] at hpooled
        rcases hpooled.frame hlive with ⟨hnone, -⟩ | ⟨hsome, -, -, hlt⟩
        · cases hnone
        cases hsome
        have hkern := lay.isKernelPage_of_pool (Nat.le_add_right ..) (Nat.add_lt_add_left hlt _)
        rw [hsound.kernel hadd] at hkern
        cases hkern
      · cases ht
  · rcases (hsound.alloc (c := .allocPagesContig n preferred) rfl ht).2 with ⟨f, hf, -⟩ | hpooled
    · cases hf
    · rw [hpooled.state]
      exact fun _ => Iff.rfl

def merging (calls : Nat) : Option World :=
  Reach.run (World.step highKernel) (World.valid highKernel) .boot (trimCalls.take calls)

def World.fourFree (w : World) : Bool :=
  (List.range' 4 4).all fun g => w.added g ∧ (w.pmm.info g).refcount = 0 ∧ (w.pmm.info g).numaNode = 0

theorem World.fourFree_run {w : World} (h : w.fourFree) {k : Nat} (hk : k ≤ 2) : w.FreeRun 0 k 4 := by
  refine ⟨Nat.pow_dvd_pow 2 hk, fun g hg => ?_⟩
  have hpow := Nat.pow_le_pow_right Nat.two_pos hk
  have hall := of_decide_eq_true (List.all_eq_true.mp h g (mem_range'_1.mpr ⟨hg.1, lt_of_lt_of_le hg.2 (by omega)⟩))
  exact ⟨⟨hall.1, hall.2.1⟩, hall.2.2⟩

theorem merging_one : (merging 1).map (fun w => (w.fourFree, (w.pmm.allocPagesContig highKernel 2 0).map Prod.fst)) =
    some (true, some none) := by
  decide +kernel

theorem merging_five : (merging 5).map (fun w => (w.fourFree, w.pmm.heads 0 2)) = some (true, some 4) := by
  decide +kernel

theorem contig_found_merged : ∃ w, merging 5 = some w ∧ ∃ base t,
    w.pmm.allocPagesContig highKernel 3 0 = some (some base, t) ∧ ∀ g, base ≤ g → g < base + 3 → w.Free g := by
  obtain ⟨w, hw, hpmm⟩ := map_eq_some_iff.mp merging_five
  obtain ⟨hfree, hhead⟩ := Prod.mk.inj hpmm
  refine ⟨w, hw, ((contig_found highKernel (Reach.of_run (trimCalls.take 5) .start hw) 3 0).1 0 2 4 (by decide)
    (by decide) (by decide) (by decide) (World.fourFree_run hfree (le_refl 2))).mpr ?_⟩
  exact ⟨0, lt_of_lt_of_le Nat.one_pos (Nat.le_max_right ..), 2, le_refl 2, by decide, by rw [hhead]; rfl⟩

/-- Two frames that were added one after the other, and not yet handed out, are not found as a pair. -/
theorem added_not_found : ∃ w : World, Reach (fun w c w' => w.step highKernel c = some w')
    (fun w c => w.valid highKernel c = true) .boot w ∧ w.FreeRun 0 1 4 ∧
      (w.pmm.allocPagesContig highKernel 2 0).map Prod.fst = some none := by
  obtain ⟨w, hw, hpmm⟩ := map_eq_some_iff.mp merging_one
  obtain ⟨hfree, hnone⟩ := Prod.mk.inj hpmm
  exact ⟨w, Reach.of_run (trimCalls.take 1) .start hw, World.fourFree_run hfree (by decide), hnone⟩

end Moxide.Pmm
