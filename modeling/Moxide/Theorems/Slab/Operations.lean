import Moxide.Theorems.Slab.Caches

namespace Moxide.Slab
open Lib (Mem DList Chain)
open SlabHdr List
open Function (update update_of_ne update_self)

/-! ### The operations -/

/-- What an operation leaves: the invariant of the new lists, the pages of before and the new ones, and all else
    unchanged. -/
structure Served (m m' : Mem) (k : Nat) (c' : Cache) (L L' : Kind → List SlabPage) (new live' : List Nat) : Prop where
  inv : CacheInv m' k c' L' live'
  pages : (addrs (all L')).Perm (new ++ addrs (all L))
  except : Mem.Except m m' (InPages (addrs (all L')))

theorem InPages.perm {l l' : List Nat} (h : l.Perm l') {x : Nat} (hx : InPages l x) : InPages l' x := by
  obtain ⟨q, hq, hx⟩ := hx
  exact ⟨q, h.mem_iff.mp hq, hx⟩

theorem InPages.sub {l l' : List Nat} (h : l ⊆ l') {x : Nat} (hx : InPages l x) : InPages l' x := by
  obtain ⟨q, hq, hx⟩ := hx
  exact ⟨q, h hq, hx⟩

section Operations
variable {m m' : Mem} {k p a : Nat} {c : Cache} {L : Kind → List SlabPage} {fr live guarded : List Nat}
  {rest l₁ l₂ : List SlabPage} {l : List Nat} {frame : Option Nat}

theorem Served.refl (h : CacheInv m k c L live) : Served m m k c L L [] live := ⟨h, List.Perm.refl _, Mem.Except.refl m _⟩

theorem growAt_eq (hsize : c.objSize = objSize k) (hcap : c.capacity = cap k) (m : Mem) (idx p : Nat) :
    c.growAt m idx p = ({ c with partialHead := p }, (listPush (fresh m k idx p) c.partialHead p).2) := by
  unfold Cache.growAt fresh
  rw [hsize, hcap]
  rfl

theorem growAt_served (hk : ClassFits k) (h : CacheInv m k c L live) (hp : IsPage p) (hnew : p ∉ addrs (all L)) (idx : Nat) :
    Served m (c.growAt m idx p).2 k (c.growAt m idx p).1 L (update L .part (⟨p, slotsOf k p⟩ :: L .part)) [p] live := by
  rw [growAt_eq h.size h.capacity]
  have hX : Apart p (all L) := ⟨hp, fun sl hsl => ⟨h.linked.page sl hsl, fun heq => hnew (heq ▸ mem_map.mpr ⟨sl, hsl, rfl⟩)⟩⟩
  obtain ⟨-, hexc⟩ := fresh_holds hk hp m idx
  have hlinked : Linked (fresh m k idx p) c.head L := by
    refine h.linked.frame hexc fun q hq x hlo hhi hin => ?_
    obtain ⟨sl, hsl, rfl⟩ := mem_map.mp hq
    obtain ⟨q, hq, hin⟩ := hin
    rw [mem_singleton.mp hq] at hin
    have := (hX.others sl hsl).1.apart hp (hX.others sl hsl).2
    omega
  obtain ⟨hpushed, hexc'⟩ := hlinked.push (j := .part) (slotsOf k p) hp hnew
    (show Cache.head { c with partialHead := p } .part = p from rfl)
      (fun t ht => by cases t <;> first | exact absurd rfl ht | rfl)
  have hperm := all_push L .part ⟨p, slotsOf k p⟩
  have hpages : ∀ q ∈ p :: addrs (all L), IsPage q := by
    intro q hq
    rcases mem_cons.mp hq with rfl | hq
    · exact hp
    · obtain ⟨sl, hsl, rfl⟩ := mem_map.mp hq
      exact h.linked.page sl hsl
  have hslots := (h.slots.fresh hk hX idx).mem_congr fun sl => hperm.mem_iff
  refine ⟨⟨⟨h.size, h.capacity, hpushed, hslots.links hk hexc' hpushed.page hpages⟩, fun i sl hsl => ?_⟩,
    addrs_perm hperm, ?_⟩
  · by_cases hi : i = .part
    · subst hi
      rcases mem_cons.mp hsl with rfl | hsl
      · have hpos : 0 < (slotsOf k p).length := by
          rw [length_slotsOf]
          exact lt_of_lt_of_le Nat.two_pos hk.two
        exact ne_nil_of_length_pos hpos
      · exact h.fits .part sl hsl
    · rw [update_of_ne hi] at hsl
      exact h.fits i sl hsl
  · have hsame := (addrs_perm hperm).symm
    refine (hexc.mono fun x hx => ?_).trans (hexc'.mono fun x hx => hx.inPages.perm hsame)
    exact (hx.sub (cons_subset.mpr ⟨mem_cons_self, nil_subset _⟩)).perm hsame

def newPages (c : Cache) (frame : Option Nat) : List Nat := if c.partialHead = 0 ∧ c.emptyHead = 0 then frame.toList else []

/-- A refill leaves a partial slab, if a frame is to be had. -/
theorem refill_served (hk : ClassFits k) (h : CacheInv m k c L live) (idx : Nat)
    (hframe : ∀ page ∈ frame, IsPage page ∧ page ∉ addrs (all L)) :
    (c.refill m idx frame = (false, c, m) ∧ frame = none) ∨
    ∃ c' m' L', c.refill m idx frame = (true, c', m') ∧ L' .part ≠ [] ∧ Served m m' k c' L L' (newPages c frame) live := by
  rw [Cache.refill_eq]
  unfold newPages
  by_cases hp0 : c.partialHead = 0
  · rw [if_pos hp0]
    by_cases he0 : c.emptyHead = 0
    · rw [if_neg (not_not.mpr he0), if_pos ⟨hp0, he0⟩]
      cases frame with
      | none => exact .inl ⟨rfl, rfl⟩
      | some page =>
        obtain ⟨hpage, hnew⟩ := hframe page rfl
        refine .inr ⟨_, _, _, rfl, ?_, growAt_served hk h hpage hnew idx⟩
        exact cons_ne_nil _ _
    -- the first empty slab becomes a partial one
    rw [if_pos he0, if_neg fun hboth => he0 hboth.2]
    obtain ⟨sl, rest, hL, hhead⟩ := h.linked.first (i := .empty) he0
    have hfirst : L .empty = [] ++ sl :: rest := hL
    obtain ⟨hshape, hperm, hexc⟩ := h.toShape.move (j := .part) (p := c.emptyHead) hk (by decide) hfirst hhead
    have hfree : sl.free ≠ [] := by
      have hlen : sl.free.length = cap k := h.fits .empty sl (hL ▸ mem_cons_self)
      refine ne_nil_of_length_pos ?_
      rw [hlen]
      exact lt_of_lt_of_le Nat.two_pos hk.two
    generalize c.moved m .empty .part c.emptyHead = r at hshape hexc ⊢
    obtain ⟨c', m'⟩ := r
    refine .inr ⟨c', m', _, rfl, ?_, ⟨⟨hshape, ?_⟩, addrs_perm hperm, ?_⟩⟩
    · exact cons_ne_nil _ _
    · exact fits_move (by decide) hfree (fun x hx => h.fits .empty x (hL ▸ mem_cons_of_mem _ hx)) fun t _ => h.fits t
    · exact hexc.mono fun x hx => hx.perm (addrs_perm hperm).symm
  · rw [if_neg hp0, if_neg fun hboth => hp0 hboth.1]
    obtain ⟨sl, rest, hL, -⟩ := h.linked.first (i := .part) hp0
    exact .inr ⟨c, m, L, rfl, by rw [hL]; exact cons_ne_nil _ _, Served.refl h⟩

theorem moveFull_shape (hk : ClassFits k) (h : Shape m k c L live guarded) (hL : L .part = ⟨p, fr⟩ :: rest)
    (hrest : ∀ x ∈ rest, Fits k .part x) (hfits : ∀ t, t ≠ .part → ∀ x ∈ L t, Fits k t x) :
    ∃ L', Shape (c.moveFull m p).2 k (c.moveFull m p).1 L' live guarded ∧ (∀ t, ∀ x ∈ L' t, Fits k t x) ∧
      (all L').Perm (all L) ∧ Mem.Except m (c.moveFull m p).2 (InPages (addrs (all L))) := by
  have hfirst : L .part = [] ++ ⟨p, fr⟩ :: rest := hL
  have hold := h.slot_mem hfirst
  have hcount : inUse m p + fr.length = cap k := hold.inUse
  have hcap : SlabHdr.capacity m p = cap k := hold.capacity
  rw [Cache.moveFull_eq, hcap]
  by_cases hfr : fr = []
  · subst hfr
    rw [if_pos (show inUse m p = cap k from hcount)]
    obtain ⟨hshape, hperm, hexc⟩ := h.move (j := .full) (p := p) hk (by decide) hfirst rfl
    exact ⟨_, hshape, fits_move (by decide) rfl hrest hfits, hperm, hexc⟩
  have hpos : 0 < fr.length := length_pos_of_ne_nil hfr
  rw [if_neg (by omega)]
  refine ⟨L, h, fun t x hx => ?_, List.Perm.refl _, Mem.Except.refl m _⟩
  by_cases ht : t = .part
  · subst ht
    rw [hL] at hx
    rcases mem_cons.mp hx with rfl | hx
    · exact hfr
    · exact hrest x hx
  · exact hfits t ht x hx

theorem take_eq (c : Cache) (m : Mem) : c.take m =
    (slotUserPtr (freeHead m c.partialHead), (c.moveFull (popped m c.partialHead) c.partialHead).1,
      sealSlot (c.moveFull (popped m c.partialHead) c.partialHead).2 (freeHead m c.partialHead)
        (c.moveFull (popped m c.partialHead) c.partialHead).1.objSize) := by
  simp only [Cache.take, popped, sealSlot]

theorem Body.inPages (hk : ClassFits k) (hp : p ∈ l) (ha : a ∈ slotsOf k p) {x : Nat} (h : Body k p a x) : InPages l x := by
  have hb := slot_bounds hk ha
  refine ⟨p, hp, ?_⟩
  rcases h with ⟨hlo, hhi⟩ | ⟨hlo, hhi⟩
  · omega
  · omega

theorem take_served (hk : ClassFits k) (h : CacheInv m k c L live) (hne : L .part ≠ []) :
    ∃ a c' m' L', c.take m = (slotUserPtr a, c', m') ∧ Served m m' k c' L L' [] (a :: live) := by
  obtain ⟨⟨p, free⟩, rest, hL⟩ := exists_cons_of_ne_nil hne
  obtain ⟨a, fr, rfl⟩ := exists_cons_of_ne_nil (h.fits .part _ (hL ▸ mem_cons_self))
  have hhead : c.partialHead = p := by
    have hlist := h.linked.lists .part
    rw [hL] at hlist
    exact hlist.head_eq.1
  have hfirst : L .part = [] ++ ⟨p, a :: fr⟩ :: rest := hL
  have hold := h.slot_mem hfirst
  have ha : a ∈ slotsOf k p := hold.slots a mem_cons_self
  have hafr : a ∉ fr := (nodup_cons.mp hold.nodup).1
  have hpop := h.pop hk hfirst
  obtain ⟨L', hshape, hfits, hperm, hexc⟩ := moveFull_shape hk hpop (update_self ..)
    (fun x hx => h.fits .part x (hL ▸ mem_cons_of_mem _ hx))
    fun t ht x hx => h.fits t x (by rwa [update_of_ne ht] at hx)
  have hsl : ⟨p, fr⟩ ∈ all L' := by
    refine hperm.mem_iff.mpr (mem_all.mpr ⟨.part, ?_⟩)
    exact mem_cons_self
  have hsealed := hshape.inSlot hk hsl ha hafr (sealSlot_except hk _ a) (canaryCheck_sealSlot hk _ a)
  have hpages : (addrs (all L')).Perm (addrs (all L)) := (addrs_perm hperm).trans (addrs_replace hfirst fr)
  have hp : p ∈ addrs (all L') := mem_map.mpr ⟨_, hsl, rfl⟩
  refine ⟨a, (c.moveFull (popped m p) p).1, sealSlot (c.moveFull (popped m p) p).2 a (objSize k), L', ?_,
    ⟨⟨hsealed, hfits⟩, hpages, ?_⟩⟩
  · rw [take_eq, hhead, hold.freeHead_eq, hshape.size]
  · have hexc₁ := (popped_except m k p a).mono fun x hx => hx.inPages hk hp ha
    have hexc₂ := hexc.mono fun x hx => hx.perm (addrs_perm hperm).symm
    have hexc₃ : Mem.Except _ (sealSlot (c.moveFull (popped m p) p).2 a (objSize k)) (InPages (addrs (all L'))) :=
      (sealSlot_except hk _ a).mono fun x hx => Body.inPages hk hp ha (.inr hx)
    exact (hexc₁.trans hexc₂).trans hexc₃

/-- An allocation hands out a slot that was not live. -/
theorem alloc_served (hk : ClassFits k) (h : CacheInv m k c L live) (idx : Nat)
    (hframe : ∀ page ∈ frame, IsPage page ∧ page ∉ addrs (all L)) :
    (c.alloc m idx frame = (none, c, m) ∧ frame = none) ∨
    ∃ a c' m' L', c.alloc m idx frame = (some (slotUserPtr a), c', m') ∧
      Served m m' k c' L L' (newPages c frame) (a :: live) := by
  unfold Cache.alloc
  rcases refill_served hk h idx hframe with ⟨heq, hnone⟩ | ⟨c₁, m₁, L₁, heq, hne, hserved⟩
  · rw [heq]
    exact .inl ⟨rfl, hnone⟩
  obtain ⟨a, c', m', L', htake, hserved'⟩ := take_served hk hserved.inv hne
  rw [heq]
  dsimp only
  rw [htake]
  refine .inr ⟨a, c', m', L', rfl, hserved'.inv, hserved'.pages.trans hserved.pages, ?_⟩
  exact (hserved.except.mono fun x hx => hx.perm hserved'.pages.symm).trans hserved'.except

theorem free_eq (c : Cache) (hcheck : canaryCheck m a c.objSize) : c.free m (slotUserPtr a) =
    some (c.moveFreed (freed m (pageBase a) a c.objSize) (pageBase a)
      (decide (inUse m (pageBase a) = SlabHdr.capacity m (pageBase a)))
      (decide (¬inUse m (pageBase a) = SlabHdr.capacity m (pageBase a) ∧ 0 < inUse m (pageBase a)))) := by
  have hslot : userSlotPtr (slotUserPtr a) = a := Nat.add_sub_cancel ..
  simp only [Cache.free, hslot, hcheck, if_true, freed, unlinked]

theorem moveFreed_shape {i : Kind} (hk : ClassFits k) (h : CacheInv m k c L live) (hL : L i = l₁ ++ ⟨p, fr⟩ :: l₂)
    (ha : a ∈ slotsOf k p) (hfr : a ∉ fr) :
    ∃ c' m' L', c.moveFreed (freed m p a (objSize k)) p (decide (inUse m p = SlabHdr.capacity m p))
        (decide (¬inUse m p = SlabHdr.capacity m p ∧ 0 < inUse m p)) = (c', m') ∧
      Served (freed m p a (objSize k)) m' k c' L L' [] (live.erase a) := by
  have hold := h.slot_mem hL
  have hcount : inUse m p + fr.length = cap k := hold.inUse
  have hcap : SlabHdr.capacity m p = cap k := hold.capacity
  have hshape := h.toShape.freed hk hL ha hfr
  have hpages := addrs_replace hL (a :: fr)
  have hmem : ⟨p, fr⟩ ∈ L i := hL ▸ mem_append_right _ mem_cons_self
  have hL' : update L i (l₁ ++ ⟨p, a :: fr⟩ :: l₂) i = l₁ ++ ⟨p, a :: fr⟩ :: l₂ := update_self ..
  have hrest : ∀ x ∈ l₁ ++ l₂, Fits k i x := by
    intro x hx
    refine h.fits i x (hL ▸ ?_)
    rcases mem_append.mp hx with hx | hx
    · exact mem_append_left _ hx
    · exact mem_append_right _ (mem_cons_of_mem _ hx)
  have hother : ∀ t, t ≠ i → ∀ x ∈ update L i (l₁ ++ ⟨p, a :: fr⟩ :: l₂) t, Fits k t x := by
    intro t ht x hx
    rw [update_of_ne ht] at hx
    exact h.fits t x hx
  have hnow : inUse (freed m p a (objSize k)) p + (fr.length + 1) = cap k := (hshape.slot_mem hL').inUse
  -- the slab on its way to list `j`
  have hmove : ∀ j, i ≠ j → Fits k j ⟨p, a :: fr⟩ → ∃ c' m' L', c.moved (freed m p a (objSize k)) i j p = (c', m') ∧
      Served (freed m p a (objSize k)) m' k c' L L' [] (live.erase a) := by
    intro j hij hfits
    obtain ⟨hmoved, hperm, hexc⟩ := hshape.move hk hij hL' rfl
    generalize c.moved (freed m p a (objSize k)) i j p = r at hmoved hexc
    obtain ⟨c', m'⟩ := r
    refine ⟨c', m', _, rfl, ⟨hmoved, fits_move hij hfits hrest hother⟩, (addrs_perm hperm).trans hpages, ?_⟩
    exact hexc.mono fun x hx => hx.perm (addrs_perm hperm).symm
  rw [Cache.moveFreed_eq, hcap]
  cases i with
  | full =>
    obtain rfl : fr = [] := h.fits .full _ hmem
    rw [if_pos (by rw [length_nil] at hcount; simpa using hcount)]
    exact hmove .part (by decide) (cons_ne_nil _ _)
  | part =>
    have hpos : 0 < fr.length := length_pos_of_ne_nil (h.fits .part _ hmem)
    rw [if_neg (by simp; omega)]
    by_cases hzero : inUse (freed m p a (objSize k)) p = 0
    · rw [if_pos ⟨by simp; omega, hzero⟩]
      refine hmove .empty (by decide) ?_
      change fr.length + 1 = cap k
      omega
    rw [if_neg fun hboth => hzero hboth.2]
    refine ⟨c, _, _, rfl, ⟨hshape, fun t x hx => ?_⟩, hpages, Mem.Except.refl _ _⟩
    by_cases ht : t = .part
    · subst ht
      rcases mem_append.mp hx with hx | hx
      · exact hrest x (mem_append_left _ hx)
      · rcases mem_cons.mp hx with rfl | hx
        · exact cons_ne_nil _ _
        · exact hrest x (mem_append_right _ hx)
    · exact hother t ht x hx
  | empty =>
    have hfull : fr.length = cap k := h.fits .empty _ hmem
    omega

/-- A free takes the slot back. -/
theorem free_served (hk : ClassFits k) (h : CacheInv m k c L live) (ha : a ∈ live) :
    ∃ c' m' L', c.free m (slotUserPtr a) = some (c', m') ∧ Served m m' k c' L L' [] (live.erase a) := by
  obtain ⟨⟨p, fr⟩, hsl, hslot, hfree⟩ := h.slots.placed a ha
  obtain ⟨i, hi⟩ := mem_all.mp hsl
  obtain ⟨l₁, l₂, hL⟩ := append_of_mem hi
  have hbase : pageBase a = p := pageBase_slot hk (h.linked.page _ hsl).aligned hslot
  obtain ⟨c', m', L', heq, hserved⟩ := moveFreed_shape hk h hL hslot hfree
  refine ⟨c', m', L', ?_, hserved.inv, hserved.pages, ?_⟩
  · rw [free_eq c (by rw [h.size]; exact h.slots.canary a ha), hbase, h.size, heq]
  · have hp : p ∈ addrs (all L') := hserved.pages.mem_iff.mpr (mem_map.mpr ⟨_, hsl, rfl⟩)
    exact ((freed_except hk m p a).mono fun x hx => hx.inPages hk hp hslot).trans hserved.except

theorem freeLoop_eq {head fuel : Nat} (h : Chain (fun p => ptr (next m p)) (ptr head) l) (hfuel : l.length ≤ fuel) :
    Cache.freeLoop m fuel head = some l := by
  induction l generalizing head fuel with
  | nil =>
    rw [ptr_eq_none.mp h]
    cases fuel <;> rfl
  | cons q l ih =>
    obtain ⟨hq, hl⟩ := h
    obtain ⟨rfl, h0⟩ := ptr_eq_some.mp hq
    cases fuel with
    | zero => exact absurd hfuel (Nat.not_succ_le_zero _)
    | succ fuel =>
      rw [Cache.freeLoop, if_neg h0, ih hl (Nat.le_of_succ_le_succ hfuel)]
      rfl

theorem length_pages_le (hpage : ∀ q ∈ l, IsPage q) (hnd : l.Nodup) : l.length ≤ 2 ^ 52 := by
  have hinj : (l.map (· / 4096)).Nodup := by
    refine List.Nodup.map_on (fun q hq r hr heq => ?_) hnd
    have := (hpage q hq).aligned
    have := (hpage r hr).aligned
    omega
  have hsub : l.map (· / 4096) ⊆ List.range (2 ^ 52) := by
    intro x hx
    obtain ⟨q, hq, rfl⟩ := mem_map.mp hx
    have := (hpage q hq).fits
    exact mem_range.mpr (by omega)
  have hle := (subperm_of_subset hinj hsub).length_le
  rwa [length_map, length_range] at hle

theorem SlabPage.Holds.all_free {sl : SlabPage} (h : sl.Holds m k) (hlen : sl.free.length = cap k)
    (ha : a ∈ slotsOf k sl.addr) : a ∈ sl.free := by
  have hle : (slotsOf k sl.addr).length ≤ sl.free.length := le_of_eq (length_slotsOf.trans hlen.symm)
  exact ((subperm_of_subset h.nodup h.slots).perm_of_length_le hle).mem_iff.mpr ha

/-- A shrink returns the empty slabs. -/
theorem shrink_served (h : CacheInv m k c L live) :
    c.shrink m = some (addrs (L .empty), c.setHead .empty 0) ∧
    CacheInv m k (c.setHead .empty 0) (update L .empty []) live := by
  have hsplit : all L = all (update L .empty []) ++ L .empty := by simp [all]
  have hsub : ∀ sl ∈ all (update L .empty []), sl ∈ all L := fun sl hsl => hsplit ▸ mem_append_left _ hsl
  have hlen : (addrs (L .empty)).length ≤ 2 ^ 52 := length_pages_le (h.linked.isPage .empty) (h.linked.nodup_list .empty)
  refine ⟨?_, ⟨h.size, h.capacity, ⟨fun i => ?_, ?_, fun sl hsl => h.linked.page sl (hsub sl hsl)⟩, ?_⟩, fun i sl hsl => ?_⟩
  · have hloop : Cache.freeLoop m (2 ^ 52) c.emptyHead = some (addrs (L .empty)) :=
      freeLoop_eq (DList.chain (h.linked.lists .empty)) hlen
    unfold Cache.shrink
    rw [hloop]
    rfl
  · rw [Cache.head_setHead]
    by_cases hi : i = .empty
    · subst hi
      exact rfl
    · rw [update_of_ne hi, if_neg hi]
      exact h.linked.lists i
  · have hnd := h.linked.nodup
    rw [hsplit, addrs_append] at hnd
    exact (nodup_append.mp hnd).1
  · refine ⟨fun sl hsl => h.slots.holds sl (hsub sl hsl), fun a ha => ?_, fun sl hsl => h.slots.used sl (hsub sl hsl),
      h.slots.nodup, h.slots.sub, h.slots.canary⟩
    obtain ⟨sl, hsl, hslot, hfree⟩ := h.slots.placed a ha
    refine ⟨sl, ?_, hslot, hfree⟩
    have hmem := hsl
    rw [hsplit] at hmem
    rcases mem_append.mp hmem with hmem | hmem
    · exact hmem
    · exact absurd ((h.slots.holds sl hsl).all_free (h.fits .empty sl hmem) hslot) hfree
  · by_cases hi : i = .empty
    · subst hi
      exact absurd hsl not_mem_nil
    · rw [update_of_ne hi] at hsl
      exact h.fits i sl hsl

end Operations

end Moxide.Slab
