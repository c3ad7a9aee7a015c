import Moxide.Lib.Reach
import Moxide.Theorems.Slab.Operations

/-! The whole allocator, for objects freed with their own sizes and slabs that nobody else writes into. -/

namespace Moxide.Slab
open Lib (Mem DList Chain Reach)
open SlabHdr List
open Function (update)

section Frames
variable {m m' : Mem} {k a : Nat} {c : Cache} {L : Kind → List SlabPage} {live live' : List Nat}

theorem CacheInv.frame {w : Nat → Prop} (hk : ClassFits k) (h : CacheInv m k c L live) (hexc : Mem.Except m m' w)
    (hw : ∀ q ∈ addrs (all L), ∀ x, q ≤ x → x < q + 4096 → ¬w x) : CacheInv m' k c L live where
  size := h.size
  capacity := h.capacity
  linked := h.linked.frame hexc fun q hq x hlo hhi => hw q hq x hlo (by omega)
  slots := h.slots.frame hk hexc fun sl hsl x hlo hhi => hw sl.addr (mem_map.mpr ⟨sl, hsl, rfl⟩) x (by omega) hhi
  fits := h.fits

theorem CacheInv.perm (h : CacheInv m k c L live) (hperm : live.Perm live') : CacheInv m k c L live' where
  size := h.size
  capacity := h.capacity
  linked := h.linked
  slots :=
    { holds := h.slots.holds
      placed := fun a ha => h.slots.placed a (hperm.mem_iff.mpr ha)
      used := fun sl hsl a ha hfree => hperm.mem_iff.mp (h.slots.used sl hsl a ha hfree)
      nodup := hperm.nodup_iff.mp h.slots.nodup
      sub := fun _ ha => ha
      canary := fun a ha => h.slots.canary a (hperm.mem_iff.mpr ha) }
  fits := h.fits

def InPayload (k a x : Nat) : Prop := slotUserPtr a ≤ x ∧ x < slotUserPtr a + userSize (objSize k)

theorem CacheInv.payload (hk : ClassFits k) (h : CacheInv m k c L live) (ha : a ∈ live)
    (hexc : Mem.Except m m' (InPayload k a)) : CacheInv m' k c L live := by
  have hout : ∀ x, InPayload k a x → a + 4 ≤ x ∧ x + 4 < a + objSize k := by
    rintro x ⟨hlo, hhi⟩
    unfold slotUserPtr userSize CANARY_SIZE at *
    omega
  have hcheck : canaryCheck m' a (objSize k) := by
    have hlo : m'.load a 4 = m.load a 4 := (hexc.same fun x hx hx' hin => by have := hout x hin; omega).load_eq
    have hhi : m'.load (a + (objSize k - CANARY_SIZE)) 4 = m.load (a + (objSize k - CANARY_SIZE)) 4 :=
      (hexc.same fun x hx hx' hin => by
        have := hout x hin
        unfold CANARY_SIZE at hx
        omega).load_eq
    have hcan := h.slots.canary a ha
    unfold canaryCheck at hcan ⊢
    rwa [hlo, hhi]
  obtain ⟨sl, hsl, hslot, hfree⟩ := h.slots.placed a ha
  have hin := h.toShape.inSlot hk hsl hslot hfree
    (hexc.mono fun x hx => ⟨by have := hout x hx; omega, by have := hout x hx; omega⟩) hcheck
  exact ⟨⟨h.size, h.capacity, hin.linked, hin.slots.holds, hin.slots.placed, hin.slots.used, hin.slots.nodup, fun b hb => hb,
    fun b hb => hin.slots.canary b (mem_cons_of_mem _ hb)⟩, h.fits⟩

end Frames

/-! ### The invariant -/

def slotsIn (live : List Object) (k : Nat) : List Nat :=
  (live.filter fun o => sizeClass o.size = some k).map fun o => userSlotPtr o.ptr

def pagesIn (pages : List (Nat × Nat)) (k : Nat) : List Nat := (pages.filter fun p => p.2 = k).map (·.1)

structure Inv (s : State) : Prop where
  count : s.caches.length = NUM_CACHES
  cache : ∀ k c, s.caches[k]? = some c →
    ∃ L, CacheInv s.mem k c L (slotsIn s.live k) ∧ (addrs (all L)).Perm (pagesIn s.pages k)
  distinct : (s.pages.map (·.1)).Nodup
  classes : ∀ p ∈ s.pages, p.2 < NUM_CACHES
  objects : ∀ o ∈ s.live, (∃ k, sizeClass o.size = some k) ∧ CANARY_SIZE ≤ o.ptr

section Lists
variable {live : List Object} {pages : List (Nat × Nat)} {o : Object} {k j q : Nat}

theorem slotsIn_cons : slotsIn (o :: live) k =
    if sizeClass o.size = some k then userSlotPtr o.ptr :: slotsIn live k else slotsIn live k := by
  unfold slotsIn
  by_cases h : sizeClass o.size = some k
  · rw [if_pos h, filter_cons_of_pos (by simpa using h), map_cons]
  · rw [if_neg h, filter_cons_of_neg (by simpa using h)]

theorem mem_slotsIn {a : Nat} : a ∈ slotsIn live k ↔ ∃ o ∈ live, sizeClass o.size = some k ∧ userSlotPtr o.ptr = a := by
  simp [slotsIn, and_assoc]

theorem mem_pagesIn : q ∈ pagesIn pages k ↔ (q, k) ∈ pages := by
  simp [pagesIn]

theorem pagesIn_append (new : List Nat) (i : Nat) :
    pagesIn (new.map (·, i) ++ pages) k = (if i = k then new else []) ++ pagesIn pages k := by
  unfold pagesIn
  by_cases h : i = k
  · simp [h, filter_map, Function.comp_def]
  · simp [h, filter_map, Function.comp_def]

theorem pagesIn_disjoint (hnd : (pages.map (·.1)).Nodup) (hjk : j ≠ k) (hq : q ∈ pagesIn pages j) : q ∉ pagesIn pages k := by
  intro hk
  have heq := inj_on_of_nodup_map hnd (mem_pagesIn.mp hq) (mem_pagesIn.mp hk) rfl
  exact hjk (Prod.mk.inj heq).2

theorem pagesIn_filter (freed : List Nat) :
    pagesIn (pages.filter fun p => p.1 ∉ freed) k = (pagesIn pages k).filter fun q => q ∉ freed := by
  unfold pagesIn
  rw [filter_map, filter_filter, filter_filter]
  congr 1
  refine filter_congr fun p _ => ?_
  simp [Bool.and_comm]

end Lists

theorem sizeClass_lt {size k : Nat} (h : sizeClass size = some k) : k < NUM_CACHES := by
  unfold sizeClass at h
  split at h
  · cases h
    decide
  · exact (findIdx?_eq_some_iff_getElem.mp h).1

theorem sizeClass_fits {size k : Nat} (h : sizeClass size = some k) : size + 2 * CANARY_SIZE ≤ objSize k := by
  have hlt := sizeClass_lt h
  have hk := classFits hlt
  have hmax : ∀ k < NUM_CACHES, objSize k < 2 ^ 64 - 1 := by decide
  have hsmall := hmax k hlt
  unfold sizeClass at h
  split at h
  · have hlink := hk.link
    unfold CANARY_SIZE
    omega
  obtain ⟨hlen, hle, -⟩ := findIdx?_eq_some_iff_getElem.mp h
  have hget : objSize k = SIZE_CLASSES[k] := by
    unfold objSize
    rw [getD_eq_getElem?_getD, getElem?_eq_getElem hlen, Option.getD_some]
  have hle := of_decide_eq_true hle
  omega

/-! ### Steps -/

/-- A frame that `pmm::alloc_page` may return, if it returns one: a page that is not in use. -/
def freshFrame (s : State) (frame : Option Nat) : Bool :=
  frame.all fun p => decide (p ≠ 0 ∧ p % 4096 = 0 ∧ p + 4096 ≤ 2 ^ 64 ∧ p ∉ s.pages.map (·.1))

/-- What callers keep to: they free live objects with their own sizes, and write into slabs only to the payload of a live
    object. -/
def allowed (s : State) : Event → Bool
  | .init idx frame => idx < NUM_CACHES && freshFrame s frame
  | .alloc _ frame _ => freshFrame s frame
  | .free ptr size => ptr = 0 || sizeClass size = none || s.live.contains ⟨ptr, size⟩
  | .shrink idx => idx < NUM_CACHES
  | .write a _ =>
    s.live.any (fun o => (sizeClass o.size).any fun k => decide (o.ptr ≤ a ∧ a < o.ptr + userSize (objSize k))) ||
      s.pages.all fun p => decide (a < p.1 ∨ p.1 + 4096 ≤ a)

section Steps
variable {s t : State} {k : Nat} {c c' : Cache} {L L' : Kind → List SlabPage} {new live' : List Nat} {m' : Mem}

variable {frame : Option Nat} {p idx : Nat}

theorem freshFrame_spec (h : freshFrame s frame) : ∀ p ∈ frame, IsPage p ∧ p ∉ s.pages.map (·.1) := by
  intro p hp
  obtain ⟨h0, halign, hfits, hnew⟩ := of_decide_eq_true (Option.all_eq_true .. |>.mp h p hp)
  exact ⟨⟨h0, halign, hfits⟩, hnew⟩

theorem Inv.lt (h : Inv s) (hc : s.caches[k]? = some c) : k < NUM_CACHES := by
  rw [← h.count]
  exact (List.getElem?_eq_some_iff.mp hc).1

theorem Inv.exists_cache (h : Inv s) (hk : k < NUM_CACHES) : ∃ c, s.caches[k]? = some c := by
  rw [← h.count] at hk
  exact ⟨_, getElem?_eq_getElem hk⟩

theorem getElem?_set_cases {l : List Cache} {j : Nat} {d : Cache} (hd : (l.set k c')[j]? = some d) :
    (j = k ∧ d = c') ∨ (j ≠ k ∧ l[j]? = some d) := by
  by_cases hj : j = k
  · subst hj
    obtain ⟨hlt, hget⟩ := List.getElem?_eq_some_iff.mp hd
    rw [getElem_set_self] at hget
    exact .inl ⟨rfl, hget.symm⟩
  · rw [getElem?_set_ne (Ne.symm hj)] at hd
    exact .inr ⟨hj, hd⟩

theorem Inv.served (h : Inv s) (hk : k < NUM_CACHES) (hpages : (addrs (all L)).Perm (pagesIn s.pages k))
    (hserved : Served s.mem t.mem k c' L L' new live') (hcaches : t.caches = s.caches.set k c')
    (hlive : live'.Perm (slotsIn t.live k)) (hother : ∀ j, j ≠ k → (slotsIn s.live j).Perm (slotsIn t.live j))
    (htpages : t.pages = new.map (·, k) ++ s.pages) (hnew : ∀ p ∈ new, p ∉ s.pages.map (·.1)) (hnd : new.Nodup)
    (hobjects : ∀ o ∈ t.live, (∃ k, sizeClass o.size = some k) ∧ CANARY_SIZE ≤ o.ptr) : Inv t := by
  have hdistinct : (t.pages.map (·.1)).Nodup := by
    have hmap : (new.map (·, k)).map (·.1) = new := by
      rw [map_map]
      exact map_id new
    rw [htpages, map_append, hmap, nodup_append]
    exact ⟨hnd, h.distinct, fun a ha b hb heq => hnew a ha (heq ▸ hb)⟩
  have hmine : (addrs (all L')).Perm (pagesIn t.pages k) := by
    rw [htpages, pagesIn_append, if_pos rfl]
    exact hserved.pages.trans (hpages.append_left new)
  refine ⟨by rw [hcaches, length_set, h.count], fun j d hd => ?_, hdistinct, fun p hp => ?_, hobjects⟩
  · rw [hcaches] at hd
    rcases getElem?_set_cases hd with ⟨rfl, rfl⟩ | ⟨hj, hd⟩
    · exact ⟨L', hserved.inv.perm hlive, hmine⟩
    obtain ⟨M, hinv, hperm⟩ := h.cache j d hd
    have hsame : pagesIn t.pages j = pagesIn s.pages j := by rw [htpages, pagesIn_append, if_neg hj.symm, nil_append]
    rw [hsame]
    refine ⟨M, (hinv.frame (classFits (h.lt hd)) hserved.except fun q hq x hlo hhi hin => ?_).perm (hother j hj), hperm⟩
    obtain ⟨r, hr, hlo', hhi'⟩ := hin
    have hne : q ≠ r := by
      rintro rfl
      exact pagesIn_disjoint hdistinct hj (hsame ▸ hperm.mem_iff.mp hq) (hmine.mem_iff.mp hr)
    obtain ⟨sl, hsl, rfl⟩ := mem_map.mp hq
    obtain ⟨sl', hsl', rfl⟩ := mem_map.mp hr
    have := (hinv.linked.page sl hsl).apart (hserved.inv.linked.page sl' hsl') hne
    omega
  · rw [htpages] at hp
    rcases mem_append.mp hp with hp | hp
    · obtain ⟨q, -, rfl⟩ := mem_map.mp hp
      exact hk
    · exact h.classes p hp

theorem not_mem_addrs (hpages : (addrs (all L)).Perm (pagesIn s.pages k)) (hnew : p ∉ s.pages.map (·.1)) :
    p ∉ addrs (all L) := fun hmem =>
  hnew (mem_map.mpr ⟨_, mem_pagesIn.mp (hpages.mem_iff.mp hmem), rfl⟩)

theorem init_inv (h : Inv s) (hidx : idx < NUM_CACHES) (hframe : freshFrame s frame) :
    ∃ t, s.initCache idx frame = some t ∧ Inv t := by
  obtain ⟨c, hc⟩ := h.exists_cache hidx
  obtain ⟨L, hinv, hpages⟩ := h.cache idx c hc
  have hspec := freshFrame_spec hframe
  unfold State.initCache
  rw [hc, Option.map_some]
  refine ⟨_, rfl, ?_⟩
  split
  · cases frame with
    | none =>
      have hrefl : Served s.mem s.mem idx c L L [] _ := Served.refl hinv
      exact h.served hidx hpages hrefl rfl (List.Perm.refl _) (fun _ _ => List.Perm.refl _) rfl
        (fun p hp => absurd hp not_mem_nil) nodup_nil h.objects
    | some p =>
      obtain ⟨hpage, hnew⟩ := hspec p rfl
      have hserved := growAt_served (classFits hidx) hinv hpage (not_mem_addrs hpages hnew) idx
      refine h.served hidx hpages hserved rfl (List.Perm.refl _) (fun _ _ => List.Perm.refl _) rfl ?_
        (nodup_singleton p) h.objects
      intro q hq
      rw [mem_singleton.mp hq]
      exact hnew
  · exact h

theorem slabAlloc_eq {size : Nat} (hclass : sizeClass size = some idx) (hc : s.caches[idx]? = some c)
    (frame heap : Option Nat) :
    s.slabAlloc size frame heap = some ((c.alloc s.mem idx frame).1,
      { mem := (c.alloc s.mem idx frame).2.2
        caches := s.caches.set idx (c.alloc s.mem idx frame).2.1
        live := (c.alloc s.mem idx frame).1.toList.map (⟨·, size⟩) ++ s.live
        pages := (newPages c frame).map (·, idx) ++ s.pages }) := by
  unfold State.slabAlloc newPages
  rw [hclass]
  dsimp only
  rw [hc, Option.map_some]
  generalize c.alloc s.mem idx frame = r
  by_cases htaken : c.partialHead = 0 ∧ c.emptyHead = 0
  · rw [if_pos htaken, decide_eq_true htaken]
    rfl
  · rw [if_neg htaken, decide_eq_false htaken]
    rfl

theorem mem_newPages (h : p ∈ newPages c frame) : p ∈ frame := by
  unfold newPages at h
  split at h
  · exact Option.mem_toList.mp h
  · exact absurd h not_mem_nil

theorem nodup_newPages (c : Cache) (frame : Option Nat) : (newPages c frame).Nodup := by
  unfold newPages
  split
  · cases frame with
    | none => exact nodup_nil
    | some p => exact nodup_singleton p
  · exact nodup_nil

theorem alloc_inv (h : Inv s) (size : Nat) (heap : Option Nat) (hframe : freshFrame s frame) :
    ∃ r t, s.slabAlloc size frame heap = some (r, t) ∧ Inv t := by
  cases hclass : sizeClass size with
  | none =>
    unfold State.slabAlloc
    rw [hclass]
    exact ⟨heap, s, rfl, h⟩
  | some idx =>
    have hidx := sizeClass_lt hclass
    obtain ⟨c, hc⟩ := h.exists_cache hidx
    obtain ⟨L, hinv, hpages⟩ := h.cache idx c hc
    have hspec := freshFrame_spec hframe
    rw [slabAlloc_eq hclass hc]
    rcases alloc_served (classFits hidx) hinv idx fun p hp => ⟨(hspec p hp).1, not_mem_addrs hpages (hspec p hp).2⟩ with
      ⟨heq, hnone⟩ | ⟨a, c', m', L', heq, hserved⟩
    · rw [heq]
      have hrefl : Served s.mem s.mem idx c L L [] _ := Served.refl hinv
      refine ⟨_, _, rfl, h.served hidx hpages hrefl rfl (List.Perm.refl _)
        (fun _ _ => List.Perm.refl _) ?_ (fun p hp => absurd hp not_mem_nil) nodup_nil h.objects⟩
      rw [hnone]
      unfold newPages
      split <;> rfl
    rw [heq]
    have hslot : userSlotPtr (slotUserPtr a) = a := Nat.add_sub_cancel ..
    refine ⟨_, _, rfl, h.served hidx hpages hserved rfl ?_ (fun j hj => ?_) rfl
      (fun p hp => (hspec p (mem_newPages hp)).2) (nodup_newPages c frame) fun o ho => ?_⟩
    · change (a :: slotsIn s.live idx).Perm (slotsIn (⟨slotUserPtr a, size⟩ :: s.live) idx)
      rw [slotsIn_cons, if_pos hclass, hslot]
    · change (slotsIn s.live j).Perm (slotsIn (⟨slotUserPtr a, size⟩ :: s.live) j)
      rw [slotsIn_cons, if_neg fun heq => hj (Option.some.inj (heq.symm.trans hclass))]
    · rcases mem_cons.mp ho with rfl | ho
      · exact ⟨⟨idx, hclass⟩, Nat.le_add_left ..⟩
      · exact h.objects o ho

theorem slotsIn_erase {live : List Object} {o : Object} (ho : o ∈ live) (j : Nat) :
    (slotsIn live j).Perm (slotsIn (o :: live.erase o) j) := by
  exact ((perm_cons_erase ho).filter _).map _

section
variable (h : Inv s)
include h

theorem free_inv {ptr size : Nat} (hok : allowed s (.free ptr size) = true) : ∃ t, s.slabFree ptr size = some t ∧ Inv t := by
  unfold State.slabFree
  split
  · exact ⟨s, rfl, h⟩
  rename_i h0
  cases hclass : sizeClass size with
  | none => exact ⟨s, rfl, h⟩
  | some idx =>
    have ho : (⟨ptr, size⟩ : Object) ∈ s.live := by simpa [allowed, h0, hclass] using hok
    have hidx := sizeClass_lt hclass
    obtain ⟨c, hc⟩ := h.exists_cache hidx
    obtain ⟨L, hinv, hpages⟩ := h.cache idx c hc
    have hptr : slotUserPtr (userSlotPtr ptr) = ptr := Nat.sub_add_cancel (h.objects _ ho).2
    have ha : userSlotPtr ptr ∈ slotsIn s.live idx := mem_slotsIn.mpr ⟨_, ho, hclass, rfl⟩
    obtain ⟨c', m', L', heq, hserved⟩ := free_served (classFits hidx) hinv ha
    rw [hptr] at heq
    dsimp only
    rw [hc, Option.bind_eq_bind, Option.bind_some, heq]
    refine ⟨_, rfl, h.served hidx hpages hserved rfl ?_ (fun j hj => ?_) rfl (fun p hp => absurd hp not_mem_nil)
      nodup_nil fun o ho => h.objects o (mem_of_mem_erase ho)⟩
    · have hperm := (slotsIn_erase ho idx).erase (userSlotPtr ptr)
      rwa [slotsIn_cons, if_pos hclass, erase_cons_head] at hperm
    · have hperm := slotsIn_erase ho j
      rwa [slotsIn_cons, if_neg fun heq => hj (Option.some.inj (heq.symm.trans hclass))] at hperm

theorem shrink_inv (hidx : idx < NUM_CACHES) : ∃ t, s.shrinkCache idx = some t ∧ Inv t := by
  obtain ⟨c, hc⟩ := h.exists_cache hidx
  obtain ⟨L, hinv, hpages⟩ := h.cache idx c hc
  obtain ⟨heq, hshrunk⟩ := shrink_served hinv
  unfold State.shrinkCache
  rw [hc, Option.bind_eq_bind, Option.bind_some, heq]
  refine ⟨_, rfl, ⟨(length_set ..).trans h.count, fun j d hd => ?_, ?_, fun p hp => h.classes p (mem_filter.mp hp).1,
    h.objects⟩⟩
  · have hfreed : ∀ q ∈ addrs (L .empty), q ∈ pagesIn s.pages idx := by
      intro q hq
      obtain ⟨sl, hsl, rfl⟩ := mem_map.mp hq
      exact hpages.mem_iff.mp (mem_addrs hsl)
    change ∃ M, CacheInv s.mem j d M (slotsIn s.live j) ∧
      (addrs (all M)).Perm (pagesIn (s.pages.filter fun p => p.1 ∉ addrs (L .empty)) j)
    rw [pagesIn_filter]
    rcases getElem?_set_cases hd with ⟨rfl, rfl⟩ | ⟨hj, hd⟩
    · refine ⟨_, hshrunk, ?_⟩
      have hsplit : addrs (all L) = addrs (all (update L .empty [])) ++ addrs (L .empty) := by simp [all, addrs]
      have hnd := hinv.linked.nodup
      rw [hsplit, nodup_append] at hnd
      have hkeep : (addrs (all L)).filter (fun q => q ∉ addrs (L .empty)) = addrs (all (update L .empty [])) := by
        rw [hsplit, filter_append, filter_eq_self.mpr, filter_eq_nil_iff.mpr, append_nil]
        · intro q hq
          simpa using hq
        · intro q hq
          simpa using fun hmem => hnd.2.2 q hq q hmem rfl
      rw [← hkeep]
      exact hpages.filter _
    · obtain ⟨M, hM, hperm⟩ := h.cache j d hd
      refine ⟨M, hM, ?_⟩
      rw [filter_eq_self.mpr]
      · exact hperm
      · intro q hq
        simpa using fun hmem => pagesIn_disjoint h.distinct hj hq (hfreed q hmem)
  · exact h.distinct.sublist (filter_sublist.map _)

theorem Inv.located {o : Object} (ho : o ∈ s.live) (hclass : sizeClass o.size = some k) :
    ∃ p, (p, k) ∈ s.pages ∧ userSlotPtr o.ptr ∈ slotsOf k p := by
  obtain ⟨c, hc⟩ := h.exists_cache (sizeClass_lt hclass)
  obtain ⟨L, hinv, hpages⟩ := h.cache k c hc
  obtain ⟨sl, hsl, hslot, -⟩ := hinv.slots.placed _ (mem_slotsIn.mpr ⟨o, ho, hclass, rfl⟩)
  exact ⟨sl.addr, mem_pagesIn.mp (hpages.mem_iff.mp (mem_map.mpr ⟨sl, hsl, rfl⟩)), hslot⟩

theorem Inv.isPage (hp : (p, k) ∈ s.pages) : IsPage p := by
  obtain ⟨c, hc⟩ := h.exists_cache (h.classes _ hp)
  obtain ⟨L, hinv, hpages⟩ := h.cache k c hc
  obtain ⟨sl, hsl, rfl⟩ := mem_map.mp (hpages.mem_iff.mpr (mem_pagesIn.mpr hp))
  exact hinv.linked.page sl hsl

theorem Inv.payload_page {o : Object} {a : Nat} (ho : o ∈ s.live) (hclass : sizeClass o.size = some k)
    (hlo : o.ptr ≤ a) (hhi : a < o.ptr + userSize (objSize k)) :
    ∃ p, IsPage p ∧ p ∈ pagesIn s.pages k ∧ p ≤ a ∧ a < p + 4096 := by
  have hk := classFits (sizeClass_lt hclass)
  obtain ⟨p, hp, hslot⟩ := h.located ho hclass
  have hb := slot_bounds hk hslot
  refine ⟨p, h.isPage hp, mem_pagesIn.mpr hp, ?_⟩
  unfold userSlotPtr userSize CANARY_SIZE at *
  omega

theorem write_inv {a : Nat} {b : UInt8} (hok : allowed s (.write a b) = true) : Inv { s with mem := update s.mem a b } := by
  have hexc : Mem.Except s.mem (update s.mem a b) (· = a) := fun x hx => Function.update_of_ne hx ..
  refine { h with cache := fun k c hc => ?_ }
  obtain ⟨L, hinv, hpages⟩ := h.cache k c hc
  refine ⟨L, ?_, hpages⟩
  have hk := classFits (h.lt hc)
  -- either the byte is in the payload of an object of this class, or it is in no page of it
  have hcases : (∃ slot ∈ slotsIn s.live k, InPayload k slot a) ∨ ∀ q ∈ addrs (all L), a < q ∨ q + 4096 ≤ a := by
    rcases Bool.or_eq_true .. |>.mp hok with hany | hall
    · obtain ⟨o, ho, hclass⟩ := any_eq_true.mp hany
      obtain ⟨j, hj, hin⟩ := Option.any_eq_true .. |>.mp hclass
      obtain ⟨hlo, hhi⟩ := of_decide_eq_true hin
      by_cases hjk : j = k
      · subst hjk
        refine .inl ⟨_, mem_slotsIn.mpr ⟨o, ho, hj, rfl⟩, ?_⟩
        unfold InPayload
        rw [show slotUserPtr (userSlotPtr o.ptr) = o.ptr from Nat.sub_add_cancel (h.objects o ho).2]
        exact ⟨hlo, hhi⟩
      obtain ⟨p, hp, hmem, hlo, hhi⟩ := h.payload_page ho hj hlo hhi
      refine .inr fun q hq => ?_
      have hne : q ≠ p := by
        rintro rfl
        exact pagesIn_disjoint h.distinct hjk hmem (hpages.mem_iff.mp hq)
      obtain ⟨sl, hsl, rfl⟩ := mem_map.mp hq
      have := (hinv.linked.page sl hsl).apart hp hne
      omega
    · refine .inr fun q hq => ?_
      exact of_decide_eq_true (all_eq_true.mp hall _ (mem_pagesIn.mp (hpages.mem_iff.mp hq)))
  rcases hcases with ⟨slot, hslot, hin⟩ | hout
  · exact hinv.payload hk hslot (hexc.mono fun x hx => hx ▸ hin)
  · refine hinv.frame hk hexc fun q hq x hlo hhi heq => ?_
    have := hout q hq
    omega

theorem step_inv {e : Event} (hok : allowed s e) : ∃ t, s.step e = some t ∧ Inv t := by
  cases e with
  | init idx frame =>
    obtain ⟨hidx, hframe⟩ := Bool.and_eq_true .. |>.mp hok
    exact init_inv h (of_decide_eq_true hidx) hframe
  | alloc size frame heap =>
    obtain ⟨r, t, heq, ht⟩ := alloc_inv h size heap hok
    refine ⟨t, ?_, ht⟩
    change (s.slabAlloc size frame heap).map (·.2) = some t
    rw [heq]
    rfl
  | free ptr size => exact free_inv h hok
  | shrink idx => exact shrink_inv h (of_decide_eq_true hok)
  | write a b => exact ⟨_, rfl, write_inv h hok⟩

end

end Steps

theorem boot_inv (m : Mem) : Inv (State.boot m) where
  count := rfl
  cache k c hc := by
    have hnew : c = Cache.new (objSize k) := by
      obtain ⟨o, ho, rfl⟩ := getElem?_map .. ▸ hc |> Option.map_eq_some_iff.mp
      unfold objSize
      rw [getD_eq_getElem?_getD, ho, Option.getD_some]
    subst hnew
    refine ⟨fun _ => [], ⟨⟨rfl, rfl, ⟨fun i => ?_, nodup_nil, fun sl hsl => absurd hsl not_mem_nil⟩,
      ⟨fun sl hsl => absurd hsl not_mem_nil, fun a ha => absurd ha not_mem_nil,
        fun sl hsl => absurd hsl not_mem_nil, nodup_nil, fun a ha => ha, fun a ha => absurd ha not_mem_nil⟩⟩,
      fun i sl hsl => absurd hsl not_mem_nil⟩, List.Perm.refl _⟩
    cases i <;> rfl
  distinct := nodup_nil
  classes p hp := absurd hp not_mem_nil
  objects o ho := absurd ho not_mem_nil

/-! ### Consistent states -/

/-- The representation of a cache of class `k`: the pages of its three lists in order, and the free chain of each page. -/
structure Represents (m : Mem) (k : Nat) (c : Cache) (lists : Kind → List Nat) (free : Nat → List Nat)
    (pages live : List Nat) : Prop where
  linked : ∀ i, Listed m (c.head i) (lists i)
  once : (lists .part ++ lists .full ++ lists .empty).Nodup
  cover : (lists .part ++ lists .full ++ lists .empty).Perm pages
  full : ∀ p ∈ lists .full, inUse m p = SlabHdr.capacity m p
  part : ∀ p ∈ lists .part, inUse m p < SlabHdr.capacity m p ∧ free p ≠ []
  empty : ∀ p ∈ lists .empty, inUse m p = 0
  capacity : ∀ p ∈ pages, SlabHdr.capacity m p = slotsPerPage c.objSize
  chain : ∀ p ∈ pages, Chain (fun a => ptr (m.load a 8)) (ptr (freeHead m p)) (free p)
  count : ∀ p ∈ pages, (free p).Nodup ∧ (free p).length = SlabHdr.capacity m p - inUse m p
  unused : ∀ p ∈ pages, ∀ a, a ∈ free p ↔ a ∈ slotsOf k p ∧ a ∉ live

def Object.start (o : Object) : Nat := userSlotPtr o.ptr

def Object.stop (o : Object) : Nat := o.start + (sizeClass o.size).elim 0 objSize

structure ObjectsApart (s : State) : Prop where
  placed : ∀ o ∈ s.live, o.start + CANARY_SIZE = o.ptr ∧ o.ptr + o.size + CANARY_SIZE ≤ o.stop ∧
    ∃ p k, (p, k) ∈ s.pages ∧ sizeClass o.size = some k ∧ o.start ∈ slotsOf k p
  objects : s.live.Pairwise fun o o' => o.stop ≤ o'.start ∨ o'.stop ≤ o.start
  headers : ∀ o ∈ s.live, ∀ p ∈ s.pages, o.stop ≤ p.1 ∨ p.1 + SLAB_HDR_RAW ≤ o.start
  free : ∀ o ∈ s.live, ∀ p ∈ s.pages, ∀ a ∈ slotsOf p.2 p.1, a ∉ slotsIn s.live p.2 → o.stop ≤ a ∨ a + objSize p.2 ≤ o.start

structure Consistent (s : State) : Prop where
  caches : s.caches.length = NUM_CACHES
  represented : ∀ k c, s.caches[k]? = some c →
    ∃ lists free, Represents s.mem k c lists free (pagesIn s.pages k) (slotsIn s.live k)
  apart : ObjectsApart s

section Consistent
variable {m : Mem} {s : State} {k : Nat} {c : Cache} {L : Kind → List SlabPage} {pages live : List Nat}

def freeAt (l : List SlabPage) (p : Nat) : List Nat := ((l.find? fun sl => sl.addr = p).map (·.free)).getD []

theorem freeAt_eq {l : List SlabPage} {sl : SlabPage} (hnd : (addrs l).Nodup) (hsl : sl ∈ l) :
    freeAt l sl.addr = sl.free := by
  unfold freeAt
  cases hfind : l.find? fun x => x.addr = sl.addr with
  | none => exact absurd (find?_eq_none.mp hfind sl hsl) (by simp)
  | some x =>
    have hx := mem_of_find?_eq_some hfind
    have haddr : x.addr = sl.addr := by simpa using find?_some hfind
    rw [inj_on_of_nodup_map hnd hx hsl haddr]
    rfl

theorem CacheInv.represents (hk : ClassFits k) (h : CacheInv m k c L live) (hpages : (addrs (all L)).Perm pages) :
    Represents m k c (fun i => addrs (L i)) (freeAt (all L)) pages live := by
  have hall : addrs (L .part) ++ addrs (L .full) ++ addrs (L .empty) = addrs (all L) := by simp [all, addrs]
  have hpage : ∀ p ∈ pages, ∃ sl ∈ all L, sl.addr = p ∧ freeAt (all L) p = sl.free ∧ sl.Holds m k := by
    intro p hp
    obtain ⟨sl, hsl, rfl⟩ := mem_map.mp (hpages.mem_iff.mpr hp)
    exact ⟨sl, hsl, rfl, freeAt_eq h.linked.nodup hsl, h.slots.holds sl hsl⟩
  have hlist : ∀ i, ∀ p ∈ addrs (L i), ∃ sl, Fits k i sl ∧ sl.addr = p ∧ freeAt (all L) p = sl.free ∧ sl.Holds m k := by
    intro i p hp
    obtain ⟨sl, hsl, rfl⟩ := mem_map.mp hp
    have hmem := mem_all.mpr ⟨i, hsl⟩
    exact ⟨sl, h.fits i sl hsl, rfl, freeAt_eq h.linked.nodup hmem, h.slots.holds sl hmem⟩
  refine ⟨h.linked.lists, hall ▸ h.linked.nodup, hall ▸ hpages, ?_, ?_, ?_, ?_, ?_, ?_, ?_⟩
  · intro p hp
    obtain ⟨sl, hfits, rfl, -, hold⟩ := hlist .full p hp
    have hcount := hold.inUse
    rw [show sl.free = [] from hfits, length_nil] at hcount
    rw [hold.capacity, ← hcount, add_zero]
  · intro p hp
    obtain ⟨sl, hfits, rfl, hfree, hold⟩ := hlist .part p hp
    have hcount := hold.inUse
    have hpos : 0 < sl.free.length := length_pos_of_ne_nil hfits
    rw [hold.capacity, hfree]
    exact ⟨by omega, hfits⟩
  · intro p hp
    obtain ⟨sl, hfits, rfl, -, hold⟩ := hlist .empty p hp
    have hcount := hold.inUse
    have hlen : sl.free.length = cap k := hfits
    omega
  · intro p hp
    obtain ⟨sl, -, rfl, -, hold⟩ := hpage p hp
    rw [hold.capacity, h.size]
    rfl
  · intro p hp
    obtain ⟨sl, -, rfl, hfree, hold⟩ := hpage p hp
    rw [hfree]
    exact hold.chain
  · intro p hp
    obtain ⟨sl, -, rfl, hfree, hold⟩ := hpage p hp
    have hcount := hold.inUse
    rw [hfree, hold.capacity]
    exact ⟨hold.nodup, by omega⟩
  · intro p hp a
    obtain ⟨sl, hsl, rfl, hfree, hold⟩ := hpage p hp
    rw [hfree]
    refine ⟨fun ha => ⟨hold.slots a ha, fun hlive => ?_⟩, fun hslot => ?_⟩
    · obtain ⟨sl', hsl', hslot, hnot⟩ := h.slots.placed a hlive
      have haddr := slot_page hk (h.linked.page sl' hsl') (h.linked.page sl hsl) hslot (hold.slots a ha)
      rw [inj_on_of_nodup_map h.linked.nodup hsl' hsl haddr] at hnot
      exact hnot ha
    · obtain ⟨ha, hnot⟩ := hslot
      by_contra hfree
      exact hnot (h.slots.used sl hsl a ha hfree)

theorem Inv.slots_apart (h : Inv s) {p q j a b : Nat} (hp : (p, k) ∈ s.pages) (hq : (q, j) ∈ s.pages) (ha : a ∈ slotsOf k p)
    (hb : b ∈ slotsOf j q) (hne : k = j → a ≠ b) : a + objSize k ≤ b ∨ b + objSize j ≤ a := by
  have hba := slot_bounds (classFits (k := k) (h.classes _ hp)) ha
  have hbb := slot_bounds (classFits (k := j) (h.classes _ hq)) hb
  by_cases hpq : p = q
  · have heq := inj_on_of_nodup_map h.distinct hp hq hpq
    obtain ⟨rfl, rfl⟩ := Prod.mk.inj heq
    exact slot_apart ha hb (hne rfl)
  · have := (h.isPage hp).apart (h.isPage hq) hpq
    omega

theorem Object.stop_eq {o : Object} (h : sizeClass o.size = some k) : o.stop = o.start + objSize k := by
  unfold Object.stop
  rw [h]
  rfl

theorem Inv.apart (h : Inv s) : ObjectsApart s := by
  refine ⟨fun o ho => ?_, ?_, fun o ho p hp => ?_, fun o ho p hp a ha hfree => ?_⟩
  · obtain ⟨⟨k, hclass⟩, hptr⟩ := h.objects o ho
    obtain ⟨p, hp, hslot⟩ := h.located ho hclass
    have hfits := sizeClass_fits hclass
    have hstart : o.start + CANARY_SIZE = o.ptr := Nat.sub_add_cancel hptr
    refine ⟨hstart, ?_, p, k, hp, hclass, hslot⟩
    rw [Object.stop_eq hclass]
    omega
  · rw [pairwise_iff_forall_sublist]
    intro o o' hsub
    have ho : o ∈ s.live := hsub.subset mem_cons_self
    have ho' : o' ∈ s.live := hsub.subset (mem_cons_of_mem _ mem_cons_self)
    obtain ⟨⟨k, hclass⟩, -⟩ := h.objects o ho
    obtain ⟨⟨j, hclass'⟩, -⟩ := h.objects o' ho'
    obtain ⟨p, hp, hslot⟩ := h.located ho hclass
    obtain ⟨q, hq, hslot'⟩ := h.located ho' hclass'
    rw [Object.stop_eq hclass, Object.stop_eq hclass']
    refine h.slots_apart hp hq hslot hslot' fun hkj => ?_
    subst hkj
    obtain ⟨c, hc⟩ := h.exists_cache (sizeClass_lt hclass)
    obtain ⟨L, hinv, -⟩ := h.cache k c hc
    have hpair : [o.start, o'.start].Sublist (slotsIn s.live k) := by
      have hmap := (hsub.filter fun o => sizeClass o.size = some k).map fun o => userSlotPtr o.ptr
      simpa [slotsIn, Object.start, hclass, hclass'] using hmap
    have hnd := hinv.slots.nodup.sublist hpair
    simpa using hnd
  · obtain ⟨⟨k, hclass⟩, -⟩ := h.objects o ho
    obtain ⟨q, hq, hslot⟩ := h.located ho hclass
    have hb : q + 32 ≤ o.start ∧ o.start + objSize k ≤ q + 4096 := slot_bounds (classFits (sizeClass_lt hclass)) hslot
    rw [Object.stop_eq hclass]
    unfold SLAB_HDR_RAW
    by_cases hpq : p.1 = q
    · omega
    · have := (h.isPage hp).apart (h.isPage hq) hpq
      omega
  · obtain ⟨⟨k, hclass⟩, -⟩ := h.objects o ho
    obtain ⟨q, hq, hslot⟩ := h.located ho hclass
    rw [Object.stop_eq hclass]
    refine h.slots_apart hq hp hslot ha fun hk heq => hfree ?_
    subst hk
    exact mem_slotsIn.mpr ⟨o, ho, hclass, heq⟩

theorem Inv.consistent (h : Inv s) : Consistent s where
  caches := h.count
  represented k c hc := by
    obtain ⟨L, hinv, hpages⟩ := h.cache k c hc
    exact ⟨_, _, hinv.represents (classFits (h.lt hc)) hpages⟩
  apart := h.apart

end Consistent

/-- In every state that allowed calls and writes reach the allocator is consistent, and every allowed call returns: no canary
    assertion fires and every loop ends. -/
theorem slab_consistent (m : Mem) {s : State}
    (hr : Reach (fun s e t => State.step s e = some t) (fun s e => allowed s e = true) (State.boot m) s) :
    Consistent s ∧ ∀ e, allowed s e = true → ∃ t, s.step e = some t := by
  have hinv : Inv s := hr.invariant (boot_inv m) fun s e t hs hok hst => by
    obtain ⟨u, hu, hinv⟩ := step_inv hs hok
    rw [hu] at hst
    cases hst
    exact hinv
  refine ⟨hinv.consistent, fun e hok => ?_⟩
  obtain ⟨t, ht, -⟩ := step_inv hinv hok
  exact ⟨t, ht⟩

def oneSlab : List Event :=
  [.init 7 (some 0x1000), .alloc 1000 none none, .write 5124 1, .alloc 900 none none, .free 5124 1000, .shrink 7]

theorem slab_consistent_one : ∃ s, s.live = [⟨6148, 900⟩] ∧ s.pages = [(0x1000, 7)] ∧
    Consistent s ∧ ∀ e, allowed s e = true → ∃ t, s.step e = some t := by
  have hrun : ((Reach.run State.step allowed (State.boot fun _ => 0xAA) oneSlab).map fun s => (s.live, s.pages)) =
      some ([⟨6148, 900⟩], [(0x1000, 7)]) := by decide +kernel
  obtain ⟨s, hs, heq⟩ := Option.map_eq_some_iff.mp hrun
  obtain ⟨hlive, hpages⟩ := Prod.mk.inj heq
  exact ⟨s, hlive, hpages, slab_consistent (fun _ => 0xAA) (Reach.of_run oneSlab .start hs)⟩

end Moxide.Slab
