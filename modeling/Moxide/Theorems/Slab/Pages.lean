import Moxide.Theorems.Slab.Layout

/-! What a cache stands for: three lists of pages, each with its free slots in the order of the chain. -/

namespace Moxide.Slab
open List hiding Chain
open Lib (Mem DList Chain)
open SlabHdr

/-- A slab and its free slots, as they are chained. -/
structure SlabPage where
  addr : Nat
  free : List Nat

inductive Kind where
  | part
  | full
  | empty
  deriving DecidableEq

def Cache.head (c : Cache) : Kind → Nat
  | .part => c.partialHead
  | .full => c.fullHead
  | .empty => c.emptyHead

def all (L : Kind → List SlabPage) : List SlabPage := L .part ++ L .full ++ L .empty

def addrs (l : List SlabPage) : List Nat := l.map (·.addr)

/-- The three lists are linked from their heads, and no page is on two. -/
structure Linked (m : Mem) (heads : Kind → Nat) (L : Kind → List SlabPage) : Prop where
  lists : ∀ i, Listed m (heads i) (addrs (L i))
  nodup : (addrs (all L)).Nodup
  page : ∀ sl ∈ all L, IsPage sl.addr

/-- The header and the chain in memory are those of the page. -/
structure SlabPage.Holds (m : Mem) (k : Nat) (sl : SlabPage) : Prop where
  chain : Chain (fun a => ptr (m.load a 8)) (ptr (freeHead m sl.addr)) sl.free
  inUse : inUse m sl.addr + sl.free.length = cap k
  capacity : SlabHdr.capacity m sl.addr = cap k
  nodup : sl.free.Nodup
  slots : ∀ a ∈ sl.free, a ∈ slotsOf k sl.addr

/-- The slots of a class: each is free or live, and the canaries of those in `guarded` stand. -/
structure Slots (m : Mem) (k : Nat) (all : List SlabPage) (live guarded : List Nat) : Prop where
  holds : ∀ sl ∈ all, sl.Holds m k
  placed : ∀ a ∈ live, ∃ sl ∈ all, a ∈ slotsOf k sl.addr ∧ a ∉ sl.free
  used : ∀ sl ∈ all, ∀ a ∈ slotsOf k sl.addr, a ∉ sl.free → a ∈ live
  nodup : live.Nodup
  sub : guarded ⊆ live
  canary : ∀ a ∈ guarded, canaryCheck m a (objSize k) = true

def InPages (l : List Nat) (x : Nat) : Prop := ∃ p ∈ l, p ≤ x ∧ x < p + 4096

theorem Links.inPages {l : List Nat} {x : Nat} (h : Links l x) : InPages l x := by
  obtain ⟨p, hp, hlo, hhi⟩ := h
  exact ⟨p, hp, hlo, by omega⟩

/-- The counters of a page and one of its slots. -/
def Body (k p a : Nat) (x : Nat) : Prop := (p + 16 ≤ x ∧ x < p + 26) ∨ (a ≤ x ∧ x < a + objSize k)

section Frames
variable {m m' : Mem} {k p a : Nat} {sl : SlabPage} {all all' : List SlabPage} {l live guarded : List Nat} {w : Nat → Prop}

theorem SlabPage.Holds.congr (h : sl.Holds m k) (hhdr : Mem.Same m m' (sl.addr + 16) 12)
    (hfree : ∀ a ∈ sl.free, Mem.Same m m' a 8) : sl.Holds m' k := by
  have hhead : freeHead m' sl.addr = freeHead m sl.addr :=
    (hhdr.mono (b := sl.addr + 16) (k := 8) le_rfl (by omega)).load_eq
  have huse : SlabHdr.inUse m' sl.addr = SlabHdr.inUse m sl.addr :=
    (hhdr.mono (b := sl.addr + 24) (k := 2) (by omega) (by omega)).load_eq
  have hcap : SlabHdr.capacity m' sl.addr = SlabHdr.capacity m sl.addr :=
    (hhdr.mono (b := sl.addr + 26) (k := 2) (by omega) (by omega)).load_eq
  refine ⟨?_, by rw [huse]; exact h.inUse, by rw [hcap]; exact h.capacity, h.nodup, h.slots⟩
  rw [hhead]
  exact h.chain.congr fun a ha => by rw [(hfree a ha).load_eq]

section
variable (hk : ClassFits k)
include hk

theorem canaryCheck_congr (hsame : Mem.Same m m' a (objSize k)) :
    canaryCheck m' a (objSize k) = canaryCheck m a (objSize k) := by
  have hlink := hk.link
  have hlo : m'.load a 4 = m.load a 4 := (hsame.mono (b := a) (k := 4) le_rfl (by omega)).load_eq
  have hhi : m'.load (a + (objSize k - CANARY_SIZE)) 4 = m.load (a + (objSize k - CANARY_SIZE)) 4 :=
    (hsame.mono (b := a + (objSize k - CANARY_SIZE)) (k := 4) (by omega) (by unfold CANARY_SIZE; omega)).load_eq
  unfold canaryCheck
  rw [hlo, hhi]

theorem SlabPage.Holds.frame (h : sl.Holds m k) (hexc : Mem.Except m m' w)
    (hw : ∀ x, sl.addr + 16 ≤ x → x < sl.addr + 4096 → ¬w x) : sl.Holds m' k := by
  have hlink := hk.link
  refine h.congr (hexc.same fun x hlo hhi => hw x (by omega) (by omega)) fun a ha => ?_
  have hb := slot_bounds hk (h.slots a ha)
  exact hexc.same fun x hlo hhi => hw x (by omega) (by omega)

theorem Slots.frame (h : Slots m k all live guarded) (hexc : Mem.Except m m' w)
    (hw : ∀ sl ∈ all, ∀ x, sl.addr + 16 ≤ x → x < sl.addr + 4096 → ¬w x) : Slots m' k all live guarded := by
  refine { h with holds := fun sl hsl => (h.holds sl hsl).frame hk hexc (hw sl hsl), canary := fun a ha => ?_ }
  obtain ⟨sl, hsl, hslot, -⟩ := h.placed a (h.sub ha)
  have hb := slot_bounds hk hslot
  rw [canaryCheck_congr hk (hexc.same fun x hlo hhi => hw sl hsl x (by omega) (by omega))]
  exact h.canary a ha

theorem Slots.links (h : Slots m k all live guarded) (hexc : Mem.Except m m' (Links l)) (hall : ∀ sl ∈ all, IsPage sl.addr)
    (hl : ∀ p ∈ l, IsPage p) : Slots m' k all live guarded := by
  refine h.frame hk hexc fun sl hsl x hlo hhi => ?_
  rintro ⟨p, hp, hlo', hhi'⟩
  by_cases heq : sl.addr = p
  · omega
  · have := (hall sl hsl).apart (hl p hp) heq
    omega

end

theorem Slots.mem_congr (h : Slots m k all live guarded) (hmem : ∀ sl, sl ∈ all' ↔ sl ∈ all) :
    Slots m k all' live guarded where
  holds sl hsl := h.holds sl ((hmem sl).mp hsl)
  placed a ha := by
    obtain ⟨sl, hsl, hslot⟩ := h.placed a ha
    exact ⟨sl, (hmem sl).mpr hsl, hslot⟩
  used sl hsl := h.used sl ((hmem sl).mp hsl)
  nodup := h.nodup
  sub := h.sub
  canary := h.canary

theorem Listed.body {head : Nat} (h : Listed m head l) (hk : ClassFits k) (hexc : Mem.Except m m' (Body k p a))
    (hp : IsPage p) (ha : a ∈ slotsOf k p) (hl : ∀ q ∈ l, IsPage q) : Listed m' head l := by
  have hb := slot_bounds hk ha
  refine h.congr fun q hq => hexc.same fun x hlo hhi => ?_
  rintro (⟨hlo', hhi'⟩ | ⟨hlo', hhi'⟩)
  · by_cases heq : q = p
    · omega
    · have := (hl q hq).apart hp heq
      omega
  · by_cases heq : q = p
    · omega
    · have := (hl q hq).apart hp heq
      omega

theorem SlabPage.Holds.body (hk : ClassFits k) (h : sl.Holds m k) (hexc : Mem.Except m m' (Body k p a)) (hp : IsPage p)
    (ha : a ∈ slotsOf k p) (hsl : IsPage sl.addr) (hne : sl.addr ≠ p) : sl.Holds m' k := by
  have hb := slot_bounds hk ha
  have hapart := hsl.apart hp hne
  refine h.frame hk hexc fun x hlo hhi => ?_
  rintro (⟨hlo', hhi'⟩ | ⟨hlo', hhi'⟩) <;> omega

theorem canary_body (hk : ClassFits k) (hexc : Mem.Except m m' (Body k p a)) (hp : IsPage p) (ha : a ∈ slotsOf k p)
    {q b : Nat} (hq : IsPage q) (hb : b ∈ slotsOf k q) (hne : b ≠ a) :
    canaryCheck m' b (objSize k) = canaryCheck m b (objSize k) := by
  have hba := slot_bounds hk ha
  have hbb := slot_bounds hk hb
  refine canaryCheck_congr hk (hexc.same fun x hlo hhi => ?_)
  by_cases heq : q = p
  · subst heq
    have := slot_apart hb ha hne
    rintro (⟨hlo', hhi'⟩ | ⟨hlo', hhi'⟩) <;> omega
  · have := hq.apart hp heq
    rintro (⟨hlo', hhi'⟩ | ⟨hlo', hhi'⟩) <;> omega

end Frames

/-! ### Slot operations -/

section Slots
variable {m : Mem} {k p a : Nat} {fr live guarded : List Nat} {X : List SlabPage} {v n : Nat}

theorem slot_page (hk : ClassFits k) {q : Nat} (hp : IsPage p) (hq : IsPage q) (ha : a ∈ slotsOf k p)
    (ha' : a ∈ slotsOf k q) : p = q := by
  by_contra hne
  have := hp.apart hq hne
  have := slot_bounds hk ha
  have := slot_bounds hk ha'
  omega

/-- The page is none of `X`. -/
structure Apart (p : Nat) (X : List SlabPage) : Prop where
  page : IsPage p
  others : ∀ sl ∈ X, IsPage sl.addr ∧ sl.addr ≠ p

theorem Apart.eq_of_slot {sl : SlabPage} (hk : ClassFits k) (h : Apart p X) (hsl : sl ∈ ⟨p, fr⟩ :: X)
    (ha : a ∈ slotsOf k p) (ha' : a ∈ slotsOf k sl.addr) : sl = ⟨p, fr⟩ := by
  rcases mem_cons.mp hsl with rfl | hsl
  · rfl
  · exact absurd (slot_page hk (h.others sl hsl).1 h.page ha' ha) (h.others sl hsl).2

theorem Apart.isPage {sl : SlabPage} (h : Apart p X) (hsl : sl ∈ ⟨p, fr⟩ :: X) : IsPage sl.addr := by
  rcases mem_cons.mp hsl with rfl | hsl
  · exact h.page
  · exact (h.others sl hsl).1

section
variable (m : Mem)

theorem freeHead_set (p n : Nat) (hv : v < 2 ^ 64) : freeHead (setInUse (setFreeHead m p v) p n) p = v := by
  have hkeep : freeHead (setInUse (setFreeHead m p v) p n) p = freeHead (setFreeHead m p v) p :=
    Mem.load_store_ne (by omega)
  rw [hkeep]
  exact Mem.load_store_of_lt m (p + 16) hv

theorem inUse_setFreeHead (p v : Nat) : inUse (setFreeHead m p v) p = inUse m p :=
  Mem.load_store_ne (by omega)

theorem inUse_setInUse (p : Nat) (hn : n < 2 ^ 16) : inUse (setInUse m p n) p = n :=
  Mem.load_store_of_lt m (p + 24) hn

theorem capacity_set (p v n : Nat) : SlabHdr.capacity (setInUse (setFreeHead m p v) p n) p = SlabHdr.capacity m p := by
  have hkeep : SlabHdr.capacity (setInUse (setFreeHead m p v) p n) p = SlabHdr.capacity (setFreeHead m p v) p :=
    Mem.load_store_ne (by omega)
  rw [hkeep]
  exact Mem.load_store_ne (by omega)

theorem header_except (k p a v n : Nat) : Mem.Except m (setInUse (setFreeHead m p v) p n) (Body k p a) :=
  ((Mem.store_except m (p + 16) 8 v).mono fun x hx => .inl ⟨hx.1, by omega⟩).trans
    ((Mem.store_except _ (p + 24) 2 n).mono fun x hx => .inl ⟨by omega, by omega⟩)

end

theorem load_slot_header (hk : ClassFits k) (m : Mem) {b : Nat} (hb : b ∈ slotsOf k p) :
    (setInUse (setFreeHead m p v) p n).load b 8 = m.load b 8 := by
  have := slot_bounds hk hb
  have hkeep : (setInUse (setFreeHead m p v) p n).load b 8 = (setFreeHead m p v).load b 8 := Mem.load_store_ne (by omega)
  rw [hkeep]
  exact Mem.load_store_ne (by omega)

def popped (m : Mem) (p : Nat) : Mem :=
  setInUse (setFreeHead m p (m.load (freeHead m p) 8)) p (inUse (setFreeHead m p (m.load (freeHead m p) 8)) p + 1)

theorem popped_except (m : Mem) (k p a : Nat) : Mem.Except m (popped m p) (Body k p a) := header_except m k p a _ _

theorem SlabPage.Holds.freeHead_eq (h : SlabPage.Holds m k ⟨p, a :: fr⟩) : freeHead m p = a := (ptr_eq_some.mp h.chain.1).1

section
variable (hk : ClassFits k)
include hk

theorem SlabPage.Holds.popped (h : SlabPage.Holds m k ⟨p, a :: fr⟩) : SlabPage.Holds (popped m p) k ⟨p, fr⟩ := by
  have hcount : SlabHdr.inUse m p + (fr.length + 1) = cap k := h.inUse
  have hlt := hk.count
  have hsub : ∀ b ∈ fr, b ∈ slotsOf k p := fun b hb => h.slots b (mem_cons_of_mem _ hb)
  refine ⟨?_, ?_, (capacity_set m p _ _).trans h.capacity, (nodup_cons.mp h.nodup).2, hsub⟩
  · unfold Slab.popped
    rw [freeHead_set m p _ (Mem.load_lt m _ 8), h.freeHead_eq]
    exact h.chain.2.congr fun b hb => by rw [load_slot_header hk m (hsub b hb)]
  · change SlabHdr.inUse (Slab.popped m p) p + fr.length = cap k
    unfold Slab.popped
    rw [inUse_setFreeHead, inUse_setInUse _ p (by omega)]
    omega

/-- The first free slot becomes live. -/
theorem Slots.pop (hX : Apart p X) (h : Slots m k (⟨p, a :: fr⟩ :: X) live guarded) :
    Slots (popped m p) k (⟨p, fr⟩ :: X) (a :: live) guarded := by
  have hold := h.holds _ mem_cons_self
  have ha : a ∈ slotsOf k p := hold.slots a mem_cons_self
  have hafr : a ∉ fr := (nodup_cons.mp hold.nodup).1
  have hexc := popped_except m k p a
  have hnew : a ∉ live := by
    intro hmem
    obtain ⟨sl, hsl, hslot, hfree⟩ := h.placed a hmem
    rw [hX.eq_of_slot hk hsl ha hslot] at hfree
    exact hfree mem_cons_self
  refine ⟨fun sl hsl => ?_, fun b hb => ?_, fun sl hsl b hb hfree => ?_, nodup_cons.mpr ⟨hnew, h.nodup⟩,
    fun b hb => mem_cons_of_mem _ (h.sub hb), fun b hb => ?_⟩
  · rcases mem_cons.mp hsl with rfl | hsl
    · exact hold.popped hk
    · exact (h.holds sl (mem_cons_of_mem _ hsl)).body hk hexc hX.page ha (hX.others sl hsl).1 (hX.others sl hsl).2
  · rcases mem_cons.mp hb with rfl | hb
    · exact ⟨_, mem_cons_self, ha, hafr⟩
    obtain ⟨sl, hsl, hslot, hfree⟩ := h.placed b hb
    rcases mem_cons.mp hsl with rfl | hsl
    · exact ⟨_, mem_cons_self, hslot, fun hmem => hfree (mem_cons_of_mem _ hmem)⟩
    · exact ⟨sl, mem_cons_of_mem _ hsl, hslot, hfree⟩
  · rcases mem_cons.mp hsl with rfl | hsl
    · by_cases hba : b = a
      · rw [hba]
        exact mem_cons_self
      refine mem_cons_of_mem _ (h.used _ mem_cons_self b hb fun hmem => ?_)
      rcases mem_cons.mp hmem with rfl | hmem
      · exact hba rfl
      · exact hfree hmem
    · exact mem_cons_of_mem _ (h.used sl (mem_cons_of_mem _ hsl) b hb hfree)
  · obtain ⟨sl, hsl, hslot, -⟩ := h.placed b (h.sub hb)
    rw [canary_body hk hexc hX.page ha (hX.isPage hsl) hslot fun heq => hnew (heq ▸ h.sub hb)]
    exact h.canary b hb

def sealSlot (m : Mem) (a o : Nat) : Mem := canaryWrite (m.store a 8 0) a o

def InSlot (k a x : Nat) : Prop := a ≤ x ∧ x < a + objSize k

theorem store_inSlot (m : Mem) (v : Nat) (hn : n ≤ 8) : Mem.Except m (m.store a n v) (InSlot k a) := by
  have hlink := hk.link
  exact (Mem.store_except m a n v).mono fun x hx => ⟨hx.1, by omega⟩

theorem sealSlot_except (m : Mem) (a : Nat) : Mem.Except m (sealSlot m a (objSize k)) (InSlot k a) := by
  have hlink := hk.link
  have hend : Mem.Except _ (sealSlot m a (objSize k)) (InSlot k a) :=
    (Mem.store_except _ (a + (objSize k - CANARY_SIZE)) 4 CANARY_MAGIC).mono fun x hx => by
      unfold CANARY_SIZE at hx
      exact ⟨by omega, by omega⟩
  exact ((store_inSlot hk m 0 (le_refl 8)).trans (store_inSlot hk _ CANARY_MAGIC (by omega))).trans hend

theorem canaryCheck_sealSlot (m : Mem) (a : Nat) : canaryCheck (sealSlot m a (objSize k)) a (objSize k) := by
  have hlink := hk.link
  have hlo : (sealSlot m a (objSize k)).load a 4 = CANARY_MAGIC := by
    unfold sealSlot canaryWrite
    rw [Mem.load_store_ne (by unfold CANARY_SIZE; omega)]
    exact Mem.load_store_of_lt _ _ (by decide)
  have hhi : (sealSlot m a (objSize k)).load (a + (objSize k - CANARY_SIZE)) 4 = CANARY_MAGIC :=
    Mem.load_store_of_lt _ _ (by decide)
  unfold canaryCheck
  rw [hlo, hhi]
  decide

theorem SlabPage.Holds.inSlot {m' : Mem} (h : SlabPage.Holds m k ⟨p, fr⟩) (hexc : Mem.Except m m' (InSlot k a))
    (ha : a ∈ slotsOf k p) (hfr : a ∉ fr) : SlabPage.Holds m' k ⟨p, fr⟩ := by
  have hb := slot_bounds hk ha
  have hlink := hk.link
  refine h.congr (hexc.same fun x hlo hhi hin => ?_) fun b hb => hexc.same fun x hlo hhi hin => ?_
  · have := hin.1
    dsimp only at hhi
    omega
  · have := slot_apart (h.slots b hb) ha fun heq => hfr (heq ▸ hb)
    have := hin.1
    have := hin.2
    omega

theorem Slots.inSlot {m' : Mem} (hX : Apart p X) (h : Slots m k (⟨p, fr⟩ :: X) live guarded)
    (ha : a ∈ slotsOf k p) (hfr : a ∉ fr) (hslot : Mem.Except m m' (InSlot k a)) (hcheck : canaryCheck m' a (objSize k)) :
    Slots m' k (⟨p, fr⟩ :: X) live (a :: guarded) := by
  have hexc : Mem.Except m m' (Body k p a) := hslot.mono fun x hx => .inr hx
  refine ⟨fun sl hsl => ?_, h.placed, h.used, h.nodup, cons_subset.mpr ⟨h.used _ mem_cons_self a ha hfr, h.sub⟩,
    fun b hb => ?_⟩
  · rcases mem_cons.mp hsl with rfl | hsl
    · exact (h.holds _ mem_cons_self).inSlot hk hslot ha hfr
    · exact (h.holds sl (mem_cons_of_mem _ hsl)).body hk hexc hX.page ha (hX.others sl hsl).1 (hX.others sl hsl).2
  · by_cases hba : b = a
    · rw [hba]
      exact hcheck
    have hb := (mem_cons.mp hb).resolve_left hba
    obtain ⟨sl, hsl, hslot, -⟩ := h.placed b (h.sub hb)
    rw [canary_body hk hexc hX.page ha (hX.isPage hsl) hslot hba]
    exact h.canary b hb

def unlinked (m : Mem) (p a o : Nat) : Mem := (m.fill a 0 o).store a 8 (freeHead (m.fill a 0 o) p)

def freed (m : Mem) (p a o : Nat) : Mem :=
  setInUse (setFreeHead (unlinked m p a o) p a) p (inUse (setFreeHead (unlinked m p a o) p a) p + (2 ^ 16 - 1))

theorem unlinked_except (m : Mem) (p a : Nat) : Mem.Except m (unlinked m p a (objSize k)) (InSlot k a) :=
  (Mem.fill_except m a 0 (objSize k)).trans (store_inSlot hk _ _ (le_refl 8))

theorem freed_except (m : Mem) (p a : Nat) : Mem.Except m (freed m p a (objSize k)) (Body k p a) :=
  ((unlinked_except hk m p a).mono fun _ hx => .inr hx).trans (header_except _ k p a _ _)

end

theorem length_free_lt (h : SlabPage.Holds m k ⟨p, fr⟩) (ha : a ∈ slotsOf k p) (hfr : a ∉ fr) : fr.length + 1 ≤ cap k := by
  have hsub : a :: fr ⊆ slotsOf k p := cons_subset.mpr ⟨ha, h.slots⟩
  have hle := (subperm_of_subset (nodup_cons.mpr ⟨hfr, h.nodup⟩) hsub).length_le
  rwa [length_slotsOf] at hle

theorem SlabPage.Holds.freed (hk : ClassFits k) (hp : IsPage p) (h : SlabPage.Holds m k ⟨p, fr⟩) (ha : a ∈ slotsOf k p)
    (hfr : a ∉ fr) : SlabPage.Holds (freed m p a (objSize k)) k ⟨p, a :: fr⟩ := by
  have hb := slot_bounds hk ha
  have hlink := hk.link
  have hlt := hk.count
  have hfits := hp.fits
  have hlen := length_free_lt h ha hfr
  have hmid := h.inSlot hk (unlinked_except hk m p a) ha hfr
  have huse : SlabHdr.inUse (unlinked m p a (objSize k)) p + fr.length = cap k := hmid.inUse
  have hnext : (unlinked m p a (objSize k)).load a 8 = freeHead (unlinked m p a (objSize k)) p := by
    have hkeep : freeHead (unlinked m p a (objSize k)) p = freeHead (m.fill a 0 (objSize k)) p :=
      Mem.load_store_ne (by omega)
    rw [hkeep]
    exact Mem.load_store_of_lt _ _ (Mem.load_lt _ _ 8)
  refine ⟨?_, ?_, (capacity_set _ p _ _).trans hmid.capacity, nodup_cons.mpr ⟨hfr, h.nodup⟩, fun b hb => ?_⟩
  · unfold Slab.freed
    rw [freeHead_set _ p _ (by omega), ptr_of_ne (by omega)]
    refine ⟨rfl, ?_⟩
    dsimp only
    rw [load_slot_header hk _ ha, hnext]
    exact hmid.chain.congr fun b hb => by rw [load_slot_header hk _ (h.slots b hb)]
  · change SlabHdr.inUse (Slab.freed m p a (objSize k)) p + (fr.length + 1) = cap k
    unfold Slab.freed
    have hmod : ∀ (m : Mem) (n : Nat), SlabHdr.inUse (setInUse m p n) p = n % 2 ^ 16 :=
      fun m n => Mem.load_store m (p + 24) 2 n
    rw [hmod, inUse_setFreeHead]
    omega
  · rcases mem_cons.mp hb with rfl | hb
    · exact ha
    · exact h.slots b hb

/-- A live slot becomes the first free one. -/
theorem Slots.freed (hk : ClassFits k) (hX : Apart p X) (h : Slots m k (⟨p, fr⟩ :: X) live live) (ha : a ∈ slotsOf k p)
    (hfr : a ∉ fr) : Slots (freed m p a (objSize k)) k (⟨p, a :: fr⟩ :: X) (live.erase a) (live.erase a) := by
  have hexc := freed_except hk m p a
  have hmem : ∀ {b}, b ∈ live.erase a ↔ b ≠ a ∧ b ∈ live := h.nodup.mem_erase_iff
  refine ⟨fun sl hsl => ?_, fun b hb => ?_, fun sl hsl b hb hfree => ?_, h.nodup.erase a, fun b hb => hb, fun b hb => ?_⟩
  · rcases mem_cons.mp hsl with rfl | hsl
    · exact (h.holds _ mem_cons_self).freed hk hX.page ha hfr
    · exact (h.holds sl (mem_cons_of_mem _ hsl)).body hk hexc hX.page ha (hX.others sl hsl).1 (hX.others sl hsl).2
  · obtain ⟨hba, hb⟩ := hmem.mp hb
    obtain ⟨sl, hsl, hslot, hfree⟩ := h.placed b hb
    rcases mem_cons.mp hsl with rfl | hsl
    · refine ⟨_, mem_cons_self, hslot, fun hin => ?_⟩
      rcases mem_cons.mp hin with rfl | hin
      · exact hba rfl
      · exact hfree hin
    · exact ⟨sl, mem_cons_of_mem _ hsl, hslot, hfree⟩
  · rcases mem_cons.mp hsl with rfl | hsl
    · obtain ⟨hba, hin⟩ := not_or.mp fun hor => hfree (mem_cons.mpr hor)
      exact hmem.mpr ⟨hba, h.used _ mem_cons_self b hb hin⟩
    · refine hmem.mpr ⟨fun heq => ?_, h.used sl (mem_cons_of_mem _ hsl) b hb hfree⟩
      exact (hX.others sl hsl).2 (slot_page hk (hX.others sl hsl).1 hX.page hb (heq ▸ ha))
  · obtain ⟨hba, hb⟩ := hmem.mp hb
    obtain ⟨sl, hsl, hslot, -⟩ := h.placed b hb
    rw [canary_body hk hexc hX.page ha (hX.isPage hsl) hslot hba]
    exact h.canary b hb

theorem threadSlots_chain (hk : ClassFits k) (hp : IsPage p) {i : Nat} (hi : i ≤ cap k) {l : List Nat}
    (hl : Chain (fun a => ptr (m.load a 8)) (ptr v) l) (hlow : ∀ b ∈ l, p + (hdrOffset (objSize k) + i * objSize k) ≤ b)
    (hv : v < 2 ^ 64) :
    Chain (fun a => ptr ((threadSlots p (hdrOffset (objSize k)) (objSize k) i v m).2.load a 8))
      (ptr (threadSlots p (hdrOffset (objSize k)) (objSize k) i v m).1)
      ((List.range i).map (fun j => p + (hdrOffset (objSize k) + j * objSize k)) ++ l) ∧
    (threadSlots p (hdrOffset (objSize k)) (objSize k) i v m).1 < 2 ^ 64 ∧
    Mem.Except m (threadSlots p (hdrOffset (objSize k)) (objSize k) i v m).2 fun x => p + 32 ≤ x ∧ x < p + 4096 := by
  induction i generalizing m v l with
  | zero => exact ⟨hl, hv, Mem.Except.refl m _⟩
  | succ i ih =>
    have hslot : p + (hdrOffset (objSize k) + i * objSize k) ∈ slotsOf k p :=
      mem_map.mpr ⟨i, mem_range.mpr hi, rfl⟩
    have hb := slot_bounds hk hslot
    have hlink := hk.link
    have hfits := hp.fits
    rw [add_mul] at hlow
    rw [threadSlots]
    generalize hs : p + (hdrOffset (objSize k) + i * objSize k) = slot at hb ⊢
    have hchain : Chain (fun a => ptr ((m.store slot 8 v).load a 8)) (ptr slot) (slot :: l) := by
      rw [ptr_of_ne (by omega)]
      refine ⟨rfl, ?_⟩
      dsimp only
      rw [Mem.load_store_of_lt m slot (n := 8) hv]
      refine hl.congr fun b hb' => ?_
      have := hlow b hb'
      rw [Mem.load_store_ne (by omega)]
    obtain ⟨hdone, hlt, hexc⟩ := ih (Nat.le_of_succ_le hi) hchain (fun b hb' => by
      rcases mem_cons.mp hb' with rfl | hb'
      · omega
      · have := hlow b hb'
        omega) (by omega)
    refine ⟨?_, hlt, ?_⟩
    · rw [range_succ, map_append, append_assoc, map_singleton, hs]
      exact hdone
    · exact ((Mem.store_except m slot 8 v).mono fun x hx => ⟨by omega, by omega⟩).trans hexc

/-- The memory after `grow` has laid out a page. -/
def fresh (m : Mem) (k idx page : Nat) : Mem :=
  let (prevSlot, m) := threadSlots page (hdrOffset (objSize k)) (objSize k) (cap k) 0 m
  let m := setPrev (setNext m page 0) page 0
  let m := setInUse (setFreeHead m page prevSlot) page 0
  setClassIdx (setCapacity m page (cap k)) page idx

theorem header_fresh (m : Mem) {p : Nat} (idx : Nat) (hv : v < 2 ^ 64) (hn : n < 2 ^ 16) :
    freeHead (setClassIdx (setCapacity (setInUse (setFreeHead m p v) p 0) p n) p idx) p = v ∧
      inUse (setClassIdx (setCapacity (setInUse (setFreeHead m p v) p 0) p n) p idx) p = 0 ∧
      SlabHdr.capacity (setClassIdx (setCapacity (setInUse (setFreeHead m p v) p 0) p n) p idx) p = n := by
  have hidx : ∀ (m : Mem) {d j : Nat}, d + j ≤ 28 → (setClassIdx m p idx).load (p + d) j = m.load (p + d) j := by
    intro m d j hd
    unfold setClassIdx
    rw [Mem.load_fill_ne (by omega), Mem.load_store_ne (by omega)]
  have hcap : ∀ (m : Mem) {d j : Nat}, d + j ≤ 26 → (setCapacity m p n).load (p + d) j = m.load (p + d) j := by
    intro m d j hd
    exact Mem.load_store_ne (by omega)
  refine ⟨?_, ?_, ?_⟩
  · unfold freeHead
    rw [hidx _ (by omega), hcap _ (by omega)]
    exact freeHead_set m p 0 hv
  · unfold inUse
    rw [hidx _ (by omega), hcap _ (by omega)]
    exact inUse_setInUse _ p (by omega)
  · unfold SlabHdr.capacity
    rw [hidx _ (by omega)]
    exact Mem.load_store_of_lt _ (p + 26) hn

theorem header_fresh_except (m : Mem) (p v n idx : Nat) :
    Mem.Except m (setClassIdx (setCapacity (setInUse (setFreeHead (setPrev (setNext m p 0) p 0) p v) p 0) p n) p idx)
      fun x => p ≤ x ∧ x < p + 32 := by
  have hstore : ∀ (m : Mem) (d j v : Nat), d + j ≤ 32 → Mem.Except m (m.store (p + d) j v) fun x => p ≤ x ∧ x < p + 32 :=
    fun m d j v hd => (Mem.store_except m (p + d) j v).mono fun x hx => ⟨by omega, by omega⟩
  have hfill : ∀ m : Mem, Mem.Except m (m.fill (p + 29) 0 3) fun x => p ≤ x ∧ x < p + 32 :=
    fun m => (Mem.fill_except m (p + 29) 0 3).mono fun x hx => ⟨by omega, by omega⟩
  have hlinks := (hstore m 0 8 0 (by omega)).trans (hstore _ 8 8 0 (by omega))
  have hcounts := (hstore (setPrev (setNext m p 0) p 0) 16 8 v (by omega)).trans (hstore _ 24 2 0 (by omega))
  have hrest := ((hstore (setInUse (setFreeHead (setPrev (setNext m p 0) p 0) p v) p 0) 26 2 n (by omega)).trans
    (hstore _ 28 1 idx (by omega))).trans (hfill _)
  exact (hlinks.trans hcounts).trans hrest

theorem fresh_holds (hk : ClassFits k) (hp : IsPage p) (m : Mem) (idx : Nat) :
    SlabPage.Holds (fresh m k idx p) k ⟨p, slotsOf k p⟩ ∧ Mem.Except m (fresh m k idx p) (InPages [p]) := by
  obtain ⟨hchain, hlt, hexc⟩ := threadSlots_chain (m := m) hk hp le_rfl (v := 0) (l := []) rfl
    (fun b hb => absurd hb not_mem_nil) (by decide)
  rw [append_nil] at hchain
  unfold fresh
  generalize threadSlots p (hdrOffset (objSize k)) (objSize k) (cap k) 0 m = r at hchain hlt hexc
  obtain ⟨v, m'⟩ := r
  obtain ⟨hhead, huse, hcap⟩ := header_fresh (setPrev (setNext m' p 0) p 0) (p := p) idx hlt hk.count
  have hhdr := header_fresh_except m' p v (cap k) idx
  refine ⟨⟨?_, ?_, hcap, nodup_slotsOf hk, fun a ha => ha⟩, ?_⟩
  · rw [hhead]
    refine hchain.congr fun a ha => ?_
    have := slot_bounds hk ha
    rw [(hhdr.same (a := a) (n := 8) fun x hlo hhi hin => by omega).load_eq]
  · rw [huse, length_slotsOf, zero_add]
  · refine (hexc.mono fun x hx => ?_).trans (hhdr.mono fun x hx => ?_)
    · exact ⟨p, mem_singleton_self p, by omega, hx.2⟩
    · exact ⟨p, mem_singleton_self p, hx.1, by omega⟩

theorem Slots.fresh (hk : ClassFits k) (hX : Apart p X) (h : Slots m k X live guarded) (idx : Nat) :
    Slots (fresh m k idx p) k (⟨p, slotsOf k p⟩ :: X) live guarded := by
  obtain ⟨hholds, hexc⟩ := fresh_holds hk hX.page m idx
  have hrest := h.frame hk hexc fun sl hsl x hlo hhi hin => by
    obtain ⟨q, hq, hlo', hhi'⟩ := hin
    rw [mem_singleton.mp hq] at hlo' hhi'
    have := (hX.others sl hsl).1.apart hX.page (hX.others sl hsl).2
    omega
  refine ⟨fun sl hsl => ?_, fun a ha => ?_, fun sl hsl a ha hfree => ?_, h.nodup, h.sub, hrest.canary⟩
  · rcases mem_cons.mp hsl with rfl | hsl
    · exact hholds
    · exact hrest.holds sl hsl
  · obtain ⟨sl, hsl, hslot⟩ := h.placed a ha
    exact ⟨sl, mem_cons_of_mem _ hsl, hslot⟩
  · rcases mem_cons.mp hsl with rfl | hsl
    · exact absurd ha hfree
    · exact h.used sl hsl a ha hfree

end Slots

end Moxide.Slab
