import Moxide.Lib.Reach
import Moxide.Theorems.Pmm.Calls

/-! Runs of the allocator, with the frames that were added and the references that callers hold. -/

namespace Moxide.Pmm
open Lib List Option
open State

structure World where
  pmm : State
  added : Nat → Bool
  held : Nat → Nat

namespace World

def boot : World := ⟨State.boot, fun _ => false, fun _ => 0⟩

def grow (lay : Layout) (w : World) (t : State) : Call → Nat → Bool
  | .addRegion base size _ => fun g => w.added g || (decide (g ∈ framesOf base size) && t.usable lay g)
  | _ => w.added

def grant (w : World) (count : Nat) : Option Nat → Nat → Nat
  | some f => fun g => if f ≤ g ∧ g < f + count then w.held g + 1 else w.held g
  | none => w.held

def hold (w : World) (r : Option Nat) : Call → Nat → Nat
  | .getPage pa => Function.update w.held (pa / PAGE_SIZE) (w.held (pa / PAGE_SIZE) + 1)
  | .freePage pa => Function.update w.held (pa / PAGE_SIZE) (w.held (pa / PAGE_SIZE) - 1)
  | c =>
    match c.asks with
    | some count => w.grant count r
    | none => w.held

def step (lay : Layout) (w : World) (c : Call) : Option World :=
  (w.pmm.exec lay c).map fun (r, t) => ⟨t, w.grow lay t c, w.hold r c⟩

/-- A region that may be added: on a node that there is, within the address space, and apart from the others. -/
def fits (w : World) (base size n : Nat) : Bool :=
  n < MAX_NODES ∧ base + size + PAGE_SIZE ≤ 2 ^ 64 ∧ ∀ g ∈ framesOf base size, w.added g = false

/-- The address of a page that is handed out. The pages of the pool are the kernel's. -/
def allocated (lay : Layout) (w : World) (pa : Nat) : Bool :=
  pa % PAGE_SIZE = 0 ∧
    if w.added (pa / PAGE_SIZE) then (w.pmm.info (pa / PAGE_SIZE)).refcount ≠ 0 else lay.isKernelPage (pa / PAGE_SIZE)

def valid (lay : Layout) (w : World) : Call → Bool
  | .addRegion base size n => w.fits base size n
  | .getPage pa | .freePage pa => w.allocated lay pa
  | .allocPage _ | .allocPageOnNode _ _ | .allocPagesContig _ _ => true

end World

def Linked (s : State) (L : Lists) : Prop := ∀ n k, Chain (fun g => (s.info g).freeNext) (s.heads n k) (L n k)

def State.freeList (s : State) (n k : Nat) : List Nat := walk (fun g => (s.info g).freeNext) s.len (s.heads n k)

/-- What keeps a call from losing a page: a counter of references has room for one more, and each block that a freed
    page is merged with is among the first `POPPED_LEN + 1` blocks of its free list. -/
def World.clear (w : World) : Call → Bool
  | .getPage pa => w.added (pa / PAGE_SIZE) → (w.pmm.info (pa / PAGE_SIZE)).refcount ≠ 0xFFFFFFFF
  | .freePage pa =>
    let pi := w.pmm.info (pa / PAGE_SIZE)
    pi.refcount = 1 → Near (w.pmm.freeList pi.numaNode) (pa / PAGE_SIZE) 0
  | .addRegion _ _ _ | .allocPage _ | .allocPageOnNode _ _ | .allocPagesContig _ _ => true

structure Sound (whole : Prop) (lay : Layout) (w : World) : Prop where
  inv : ∃ L, Inv whole (fun g => w.added g = true) NoHand w.pmm L
  table : w.pmm.ready = false → w.pmm.len = 0
  bootFree : w.pmm.bootFree = []
  kernel : ∀ {g}, w.added g = true → lay.isKernelPage g = false

section
variable {whole : Prop} {A : Nat → Prop} {lay : Layout} {s t : State} {L : Lists} {w w' : World} {n k : Nat}

theorem Inv.freeList_eq {H : Nat → Prop} (h : Inv whole A H s L) : s.freeList n k = L n k := by
  refine (h.chain n k).walk_eq ?_
  have hsub : L n k ⊆ List.range s.len := by
    intro f hf
    have hknown := h.known (h.page hf inBlock_self).1
    simp only [State.known, decide_eq_true_eq] at hknown
    exact mem_range.mpr hknown.2
  have hlen := ((h.nodup n k).subperm hsub).length_le
  rwa [length_range] at hlen

theorem Sound.boot : Sound whole lay World.boot where
  inv := ⟨fun _ _ => [], {
    chain := fun _ _ => rfl
    nodup := fun _ _ => nodup_nil
    bound := nofun
    aligned := nofun
    page := nofun
    block := nofun
    apart := nofun
    hand := False.elim
    known := nofun
    node := nofun
    flag := fun _ => nofun
    count := fun _ n => by simp [World.boot, State.boot, Lists.pages]
    cover := fun _ => nofun }⟩
  table _ := rfl
  bootFree := rfl
  kernel := nofun

/-! ### The calls, one by one -/

variable {c : Call} {r : Option Nat} {pa : Nat}

theorem World.step_eq (hs : w.step lay c = some w') :
    ∃ r, w.pmm.exec lay c = some (r, w'.pmm) ∧ w'.added = w.grow lay w'.pmm c ∧ w'.held = w.hold r c := by
  obtain ⟨⟨r, t⟩, ht, hw⟩ := map_eq_some_iff.mp hs
  cases hw
  exact ⟨r, ht, rfl, rfl⟩

theorem of_exec {o : Option State} (h : o.map (fun t => (none, t)) = some (r, t)) : o = some t := by
  obtain ⟨u, hu, heq⟩ := map_eq_some_iff.mp h
  cases heq
  exact hu

theorem Sound.alloc (h : Sound whole lay w) {count : Nat} (hc : c.asks = some count)
    (ht : w.pmm.exec lay c = some (r, t)) : Outcome whole (fun g => w.added g) lay w.pmm t count r := by
  obtain ⟨L, hinv⟩ := h.inv
  exact hinv.alloc h.bootFree hc ht

theorem Sound.addRegion (h : Sound whole lay w) {base size : Nat}
    (hfit : w.fits base size n) (ht : w.pmm.exec lay (.addRegion base size n) = some (r, t)) :
    Grown whole (fun g => w.added g) lay w.pmm t (framesOf base size) := by
  obtain ⟨L, hinv⟩ := h.inv
  simp only [World.fits, decide_eq_true_eq] at hfit
  exact hinv.pmmAddRegionNode h.table hfit.1 (fun g hg => by simp [hfit.2.2 g hg]) (of_exec ht)

theorem World.allocated_iff : w.allocated lay pa ↔ pa % PAGE_SIZE = 0 ∧
    ((w.added (pa / PAGE_SIZE) ∧ (w.pmm.info (pa / PAGE_SIZE)).refcount ≠ 0) ∨
      (w.added (pa / PAGE_SIZE) = false ∧ lay.isKernelPage (pa / PAGE_SIZE))) := by
  cases hadd : w.added (pa / PAGE_SIZE) <;> simp [World.allocated, hadd]

theorem Sound.freePage (h : Sound whole lay w) (hadd : w.added (pa / PAGE_SIZE))
    (hout : (w.pmm.info (pa / PAGE_SIZE)).refcount ≠ 0) (hclear : whole → w.clear (.freePage pa))
    (ht : w.pmm.freePage lay pa = some t) :
    (∃ L, Inv whole (fun g => w.added g) NoHand t L) ∧ Recounted w.pmm t
      (Function.update (fun g => (w.pmm.info g).refcount) (pa / PAGE_SIZE)
        ((w.pmm.info (pa / PAGE_SIZE)).refcount - 1)) := by
  obtain ⟨L, hinv⟩ := h.inv
  refine hinv.freePage hadd (h.kernel hadd) hout (fun hw hone => ?_) ht
  have hnear := hclear hw
  simp only [World.clear, decide_eq_true_eq] at hnear
  rw [funext fun k => (hinv.freeList_eq (n := (w.pmm.info (pa / PAGE_SIZE)).numaNode) (k := k)).symm]
  exact hnear hone

theorem freePage_kernel (hkern : lay.isKernelPage (pa / PAGE_SIZE)) (ht : s.freePage lay pa = some t) : t = s := by
  by_cases hzero : pa = 0
  · rw [State.freePage, if_pos hzero] at ht
    exact (some.inj ht).symm
  · simp [State.freePage, hzero, hkern] at ht

theorem Sound.getPage (h : Sound whole lay w) (ha : w.allocated lay pa) (hclear : whole → w.clear (.getPage pa)) :
    ∃ L, Inv whole (fun g => w.added g) NoHand (w.pmm.getPage pa) L := by
  obtain ⟨L, hinv⟩ := h.inv
  refine ⟨L, ?_⟩
  unfold State.getPage
  dsimp only
  split
  · refine hinv.setRefcount (hinv.not_covers fun hadd => ?_) fun hw hadd hc => ?_
    · rcases (World.allocated_iff.mp ha).2 with ⟨-, hout⟩ | ⟨hnot, -⟩
      · exact hout
      · rw [hadd] at hnot
        cases hnot
    · have hroom := hclear hw
      simp only [World.clear, decide_eq_true_eq] at hroom
      refine hroom hadd ?_
      rw [← UInt32.add_sub_cancel (w.pmm.info (pa / PAGE_SIZE)).refcount 1, hc]
      rfl
  · exact hinv

theorem Recounted.getPage (pa : Nat) :
    ∃ c, Recounted s (s.getPage pa) (Function.update (fun g => (s.info g).refcount) (pa / PAGE_SIZE) c) := by
  unfold State.getPage
  dsimp only
  split
  · exact ⟨_, .setInfo⟩
  · refine ⟨(s.info (pa / PAGE_SIZE)).refcount, ?_⟩
    rw [Function.update_eq_self]
    exact .refl s

theorem Outcome.rest {count : Nat} (h : Outcome whole A lay s t count r) :
    t.ready = s.ready ∧ t.len = s.len ∧ t.bootFree = s.bootFree := by
  rcases h.2 with ⟨f, -, hgranted⟩ | hpooled
  · exact ⟨hgranted.rest.ready, hgranted.rest.len, hgranted.rest.bootFree⟩
  · rw [hpooled.state]
    exact ⟨rfl, rfl, rfl⟩

theorem Sound.of_inv (h : Sound whole lay w) (hinv : ∃ L, Inv whole (fun g => w.added g) NoHand w'.pmm L)
    (hadded : w'.added = w.added)
    (hrest : w'.pmm.ready = w.pmm.ready ∧ w'.pmm.len = w.pmm.len ∧ w'.pmm.bootFree = w.pmm.bootFree) :
    Sound whole lay w' := by
  obtain ⟨hready, hlen, hboot⟩ := hrest
  refine ⟨hadded ▸ hinv, ?_, hboot.trans h.bootFree, hadded ▸ h.kernel⟩
  rw [hready, hlen]
  exact h.table

theorem World.grow_addRegion {base size : Nat} {g : Nat} :
    w.grow lay t (.addRegion base size n) g ↔
      w.added g ∨ (g ∈ framesOf base size ∧ t.usable lay g) := by
  simp [World.grow]

theorem Sound.step (h : Sound whole lay w) (hvalid : w.valid lay c)
    (hclear : whole → w.clear c) (hs : w.step lay c = some w') : Sound whole lay w' := by
  obtain ⟨r, ht, hadded, -⟩ := World.step_eq hs
  cases c with
  | addRegion base size n =>
    have hgrown := h.addRegion hvalid ht
    obtain ⟨L, hinv⟩ := hgrown.inv
    have hiff : ∀ g, w'.added g ↔ w.added g ∨ (g ∈ framesOf base size ∧ w'.pmm.usable lay g) :=
      fun g => hadded ▸ World.grow_addRegion
    refine ⟨⟨L, hinv.added_congr fun g => (hiff g).symm⟩, hgrown.table, hgrown.bootFree.trans h.bootFree,
      fun {g} hg => ?_⟩
    rcases (hiff g).mp hg with hold | ⟨-, hu⟩
    · exact h.kernel hold
    · simp only [State.usable, decide_eq_true_eq] at hu
      exact hu.1
  | allocPage preferred | allocPageOnNode n preferred | allocPagesContig n preferred =>
    have hout := h.alloc rfl ht
    exact h.of_inv hout.1 hadded hout.rest
  | getPage pa =>
    have hpmm : w.pmm.getPage pa = w'.pmm := congrArg Prod.snd (some.inj ht)
    obtain ⟨c, hcount⟩ := hpmm ▸ Recounted.getPage (s := w.pmm) pa
    exact h.of_inv (hpmm ▸ h.getPage hvalid hclear) hadded ⟨hcount.ready, hcount.len, hcount.bootFree⟩
  | freePage pa =>
    have hu := of_exec ht
    rcases (World.allocated_iff.mp hvalid).2 with ⟨hadd, hout⟩ | ⟨-, hkern⟩
    · obtain ⟨hinv, hcount⟩ := h.freePage hadd hout hclear hu
      exact h.of_inv hinv hadded ⟨hcount.ready, hcount.len, hcount.bootFree⟩
    obtain hsame := freePage_kernel hkern hu
    refine h.of_inv ?_ hadded ?_
    · rw [hsame]
      exact h.inv
    · rw [hsame]
      exact ⟨rfl, rfl, rfl⟩

end

/-- A machine with its kernel, and the pool at its start, between 1 GiB and 1.25 GiB. -/
def highKernel : Layout := ⟨0x40000000, 0x50000000, 0x40000, by decide, by decide⟩

def trimCalls : List Call :=
  [.addRegion (4 * PAGE_SIZE) (4 * PAGE_SIZE) 0, .allocPage 0, .freePage (7 * PAGE_SIZE), .allocPage 0,
    .freePage (5 * PAGE_SIZE), .allocPagesContig 3 0, .getPage (4 * PAGE_SIZE), .freePage (4 * PAGE_SIZE)]

/-- A page that was added is handed out and in no linked block, or it is free and in exactly one: a block on a list of
    the page's node, for the order in the table. -/
structure Accounted (w : World) (L : Lists) : Prop where
  linked : Linked w.pmm L
  once : ∀ n k, (L n k).Nodup
  page : ∀ g, w.added g = true →
    ((w.pmm.info g).refcount ≠ 0 ∧ ¬L.Covers g) ∨
    ((w.pmm.info g).refcount = 0 ∧ ∃ f k, k < MAX_ORDER ∧ (w.pmm.info f).order = k ∧
      f ∈ L (w.pmm.info g).numaNode k ∧ InBlock f k g ∧
      ∀ m j e, e ∈ L m j → InBlock e j g → m = (w.pmm.info g).numaNode ∧ j = k ∧ e = f)
  count : ∀ n, w.pmm.freePages n = L.pages n

theorem Inv.accounted {w : World} {L : Lists} (h : Inv True (fun g => w.added g = true) NoHand w.pmm L) : Accounted w L where
  linked := h.chain
  once := h.nodup
  page g hg := by
    by_cases hcov : L.Covers g
    · obtain ⟨n, k, f, hf, hin⟩ := hcov
      obtain ⟨-, -, hnode, hzero⟩ := h.page hf hin
      subst hnode
      refine .inr ⟨hzero, f, k, (h.bound hf).2, (h.block hf).1, hf, hin, fun m j e he hin' => ?_⟩
      obtain ⟨rfl, rfl⟩ := h.apart hf he hin hin'
      exact ⟨(h.unique he hf).1, rfl, rfl⟩
    · rcases h.cover trivial hg with hhand | hout | hcov'
      · exact hhand.elim
      · exact .inl ⟨hout, hcov⟩
      · exact absurd hcov' hcov
  count := h.count trivial

/-- In a run whose calls are all clear, every page that was added is accounted for after each call. -/
theorem frames_accounted (lay : Layout) {w : World}
    (hr : Reach (fun w c w' => w.step lay c = some w') (fun w c => (w.valid lay c && w.clear c) = true) .boot w) :
    ∃ L, Accounted w L := by
  have hsound : Sound True lay w := by
    refine hr.invariant Sound.boot fun w c w' h hok hs => ?_
    obtain ⟨hvalid, hclear⟩ := Bool.and_eq_true_iff.mp hok
    exact h.step hvalid (fun _ => hclear) hs
  obtain ⟨L, hinv⟩ := hsound.inv
  exact ⟨L, hinv.accounted⟩

def trimmed : Option World :=
  Reach.run (World.step highKernel) (fun w c => w.valid highKernel c && w.clear c) .boot trimCalls

theorem trimmed_pmm :
    trimmed.map (fun w => (w.pmm.freeList 0 0, w.pmm.freePages 0, (List.range 8).map fun g => (w.pmm.info g).refcount)) =
      some ([7], 1, [0, 0, 0, 0, 1, 1, 1, 0]) := by
  decide +kernel

theorem frames_accounted_trimmed : ∃ w, trimmed = some w ∧ w.pmm.freeList 0 0 = [7] ∧ ∃ L, Accounted w L := by
  obtain ⟨w, hw, hpmm⟩ := map_eq_some_iff.mp trimmed_pmm
  exact ⟨w, hw, congrArg Prod.fst hpmm, frames_accounted highKernel (Reach.of_run trimCalls .start hw)⟩

def longListCalls : List Call :=
  [.addRegion (600 * PAGE_SIZE) (2 * PAGE_SIZE) 0, .allocPage 0, .addRegion (10 * PAGE_SIZE) (257 * PAGE_SIZE) 0,
    .freePage (601 * PAGE_SIZE)]

def longList : Option World :=
  Reach.run (World.step highKernel) (World.valid highKernel) .boot longListCalls

def longListBlocks (w : World) (k : Nat) : List Nat :=
  walk (fun g => (w.pmm.info g).freeNext) 260 (w.pmm.heads 0 k)

def longListLength (k : Nat) : Nat := if k = 0 then 258 else 0

theorem longList_pmm :
    longList.map (fun w => (w.added 10, (w.pmm.info 10).refcount, (w.pmm.info 10).numaNode, w.pmm.freePages 0,
      (List.range MAX_ORDER).all fun k => (longListBlocks w k).length = longListLength k ∧
        (longListBlocks w k).all fun f => ¬InBlock f k 10)) = some (true, 0, 0, 259, true) := by
  decide +kernel

theorem frame_lost : ∃ w, Reach (fun w c w' => w.step highKernel c = some w')
    (fun w c => w.valid highKernel c = true) .boot w ∧
    (w.added 10 = true ∧ (w.pmm.info 10).refcount = 0 ∧ (w.pmm.info 10).numaNode = 0 ∧ ∀ L, Linked w.pmm L →
      (∀ k < MAX_ORDER, ∀ f ∈ L 0 k, ¬InBlock f k 10) ∧ w.pmm.freePages 0 = L.pages 0 + 1) ∧
    ¬∃ L, Accounted w L := by
  obtain ⟨w, hw, hpmm⟩ := map_eq_some_iff.mp longList_pmm
  simp only [Prod.mk.injEq, List.all_eq_true, List.mem_range, decide_eq_true_eq] at hpmm
  obtain ⟨hadded, hzero, hnode, hfree, hblocks⟩ := hpmm
  have hlist : ∀ L, Linked w.pmm L → ∀ k < MAX_ORDER, L 0 k = longListBlocks w k := by
    intro L hL k hk
    refine (hL 0 k).eq_walk ?_
    have hlen := (hblocks k hk).1
    unfold longListBlocks longListLength at hlen
    rw [hlen]
    split <;> decide
  have hout : ∀ L, Linked w.pmm L → ∀ k < MAX_ORDER, ∀ f ∈ L 0 k, ¬InBlock f k 10 := by
    intro L hL k hk f hf
    rw [hlist L hL k hk] at hf
    exact (hblocks k hk).2 f hf
  have hcount : ∀ L, Linked w.pmm L → L.pages 0 = 258 := by
    intro L hL
    have hsum : L.pages 0 = ∑ k ∈ Finset.range MAX_ORDER, 2 ^ k * longListLength k := by
      refine Finset.sum_congr rfl fun k hk => ?_
      rw [hlist L hL k (Finset.mem_range.mp hk), (hblocks k (Finset.mem_range.mp hk)).1]
    rw [hsum]
    decide
  refine ⟨w, Reach.of_run longListCalls .start hw, ⟨hadded, hzero, hnode, fun L hL => ⟨hout L hL, ?_⟩⟩,
    fun ⟨L, hacc⟩ => ?_⟩
  · rw [hfree, hcount L hL]
  · have hcnt := hacc.count 0
    rw [hfree, hcount L hacc.linked] at hcnt
    cases hcnt

/-- What is on the free lists: aligned blocks, apart from each other, of frames of the list's node without a reference. -/
structure Listed (w : World) (L : Lists) : Prop where
  linked : Linked w.pmm L
  block : ∀ {n k f}, f ∈ L n k → 2 ^ k ∣ f ∧ (w.pmm.info f).order = k ∧ ∀ g, InBlock f k g →
    w.added g = true ∧ (w.pmm.info g).numaNode = n ∧ (w.pmm.info g).refcount = 0
  apart : ∀ {n k f m j e g}, f ∈ L n k → e ∈ L m j → InBlock f k g → InBlock e j g → n = m ∧ k = j ∧ f = e

/-- In every run the free lists are sound, whether or not blocks have been lost or counters have overflowed. -/
theorem free_lists_sound (lay : Layout) {w : World}
    (hr : Reach (fun w c w' => w.step lay c = some w') (fun w c => w.valid lay c = true) .boot w) : ∃ L, Listed w L := by
  have hsound : Sound False lay w := hr.invariant Sound.boot fun w c w' h hok hs => h.step hok False.elim hs
  obtain ⟨L, h⟩ := hsound.inv
  refine ⟨L, h.chain, fun hf => ⟨h.aligned hf, (h.block hf).1, fun g hg => ?_⟩, fun hf he hg hg' => ?_⟩
  · obtain ⟨hadd, -, hnode, hzero⟩ := h.page hf hg
    exact ⟨hadd, hnode, hzero⟩
  · obtain ⟨rfl, rfl⟩ := h.apart hf he hg hg'
    exact ⟨(h.unique hf he).1, rfl, rfl⟩

theorem free_lists_sound_longList : ∃ w, longList = some w ∧ ∃ L, Listed w L := by
  obtain ⟨w, hw, -⟩ := map_eq_some_iff.mp longList_pmm
  exact ⟨w, hw, free_lists_sound highKernel (Reach.of_run longListCalls .start hw)⟩

end Moxide.Pmm
