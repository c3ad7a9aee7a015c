import Moxide.Theorems.Slab.Pages

namespace Moxide.Slab
open Lib (Mem DList Chain)
open SlabHdr List
open Function (update update_eq_self update_idem update_of_ne update_self)

/-! ### Heads -/

def Cache.setHead (c : Cache) (i : Kind) (v : Nat) : Cache :=
  match i with
  | .part => { c with partialHead := v }
  | .full => { c with fullHead := v }
  | .empty => { c with emptyHead := v }

/-- A slab goes from one list to another. -/
def Cache.moved (c : Cache) (m : Mem) (i j : Kind) (slab : Nat) : Cache × Mem :=
  let (v, m) := listRemove m (c.head i) slab
  let (w, m) := listPush m (c.head j) slab
  ((c.setHead i v).setHead j w, m)

theorem Cache.head_setHead (c : Cache) (i j : Kind) (v : Nat) : (c.setHead i v).head j = if j = i then v else c.head j := by
  cases i <;> cases j <;> rfl

@[simp] theorem Cache.objSize_setHead (c : Cache) (i : Kind) (v : Nat) : (c.setHead i v).objSize = c.objSize := by
  cases i <;> rfl

@[simp] theorem Cache.capacity_setHead (c : Cache) (i : Kind) (v : Nat) : (c.setHead i v).capacity = c.capacity := by
  cases i <;> rfl

/-! The branches of the operations that move a slab. -/

section
variable (c : Cache) (m : Mem)

theorem Cache.moveFull_eq (slab : Nat) : c.moveFull m slab =
    if inUse m slab = SlabHdr.capacity m slab then c.moved m .part .full slab else (c, m) := by
  simp only [moveFull, moved, head, setHead]

theorem Cache.moveFreed_eq (slab : Nat) (wasFull wasPartial : Bool) :
    c.moveFreed m slab wasFull wasPartial =
      if wasFull then c.moved m .full .part slab
      else if wasPartial ∧ inUse m slab = 0 then c.moved m .part .empty slab
      else (c, m) := by
  simp only [moveFreed, moved, head, setHead]

theorem Cache.refill_eq (idx : Nat) (frame : Option Nat) : c.refill m idx frame =
    if c.partialHead = 0 then
      if c.emptyHead ≠ 0 then (true, c.moved m .empty .part c.emptyHead) else c.grow m idx frame
    else (true, c, m) := by
  simp only [refill, moved, head, setHead]

variable (i j : Kind) (slab : Nat)

theorem Cache.moved_fst : (c.moved m i j slab).1 = (c.setHead i (listRemove m (c.head i) slab).1).setHead j slab := by
  simp only [moved, listPush]

theorem Cache.moved_snd : (c.moved m i j slab).2 = (listPush (listRemove m (c.head i) slab).2 (c.head j) slab).2 := by
  simp only [moved]

end

/-! ### Lists of pages -/

section Lists
variable {L : Kind → List SlabPage} {i j : Kind} {sl sl' : SlabPage} {l₁ l₂ : List SlabPage}

theorem mem_all : sl ∈ all L ↔ ∃ i, sl ∈ L i := by
  unfold all
  rw [mem_append, mem_append]
  constructor
  · rintro ((h | h) | h)
    · exact ⟨.part, h⟩
    · exact ⟨.full, h⟩
    · exact ⟨.empty, h⟩
  · rintro ⟨_ | _ | _, h⟩
    · exact .inl (.inl h)
    · exact .inl (.inr h)
    · exact .inr h

theorem addrs_perm {l l' : List SlabPage} (h : l.Perm l') : (addrs l).Perm (addrs l') := h.map _

theorem addrs_append (l l' : List SlabPage) : addrs (l ++ l') = addrs l ++ addrs l' := map_append

theorem mem_addrs (h : sl ∈ L i) : sl.addr ∈ addrs (all L) := mem_map.mpr ⟨sl, mem_all.mpr ⟨i, h⟩, rfl⟩

theorem all_split (h : L i = l₁ ++ sl :: l₂) : (all L).Perm (sl :: all (update L i (l₁ ++ l₂))) := by
  cases i with
  | part => simp [all, h]
  | full =>
    have hmid : (L .part ++ l₁ ++ sl :: (l₂ ++ L .empty)).Perm _ := perm_middle
    simpa [all, h] using hmid
  | empty =>
    have hmid : (L .part ++ (L .full ++ l₁) ++ sl :: l₂).Perm _ := perm_middle
    simpa [all, h] using hmid

theorem all_replace (L : Kind → List SlabPage) (i : Kind) (sl' : SlabPage) (l₁ l₂ : List SlabPage) :
    (all (update L i (l₁ ++ sl' :: l₂))).Perm (sl' :: all (update L i (l₁ ++ l₂))) := by
  have h := all_split (L := update L i (l₁ ++ sl' :: l₂)) (i := i) (update_self ..)
  rwa [update_idem] at h

theorem addrs_replace {p : Nat} {fr : List Nat} (h : L i = l₁ ++ ⟨p, fr⟩ :: l₂) (fr' : List Nat) :
    (addrs (all (update L i (l₁ ++ ⟨p, fr'⟩ :: l₂)))).Perm (addrs (all L)) :=
  (addrs_perm (all_replace L i ⟨p, fr'⟩ l₁ l₂)).trans (addrs_perm (all_split h)).symm

theorem all_push (L : Kind → List SlabPage) (j : Kind) (sl : SlabPage) :
    (all (update L j (sl :: L j))).Perm (sl :: all L) := by
  have h := all_replace L j sl [] (L j)
  rwa [nil_append, nil_append, update_eq_self] at h

theorem all_move (hij : i ≠ j) (hL : L i = l₁ ++ sl :: l₂) :
    (all (update (update L i (l₁ ++ l₂)) j (sl :: L j))).Perm (all L) := by
  have hstep := all_push (update L i (l₁ ++ l₂)) j sl
  rw [update_of_ne hij.symm] at hstep
  exact hstep.trans (all_split hL).symm

end Lists

section Moves
variable {m m' : Mem} {heads heads' : Kind → Nat} {L : Kind → List SlabPage} {i j : Kind} {p k a : Nat} {sl : SlabPage}
  {fr fr' : List Nat} {X l₁ l₂ : List SlabPage}

section
variable (h : Linked m heads L)
include h

theorem Linked.apart (hperm : (all L).Perm (⟨p, fr⟩ :: X)) : Apart p X := by
  have hnd : (p :: addrs X).Nodup := (addrs_perm hperm).nodup_iff.mp h.nodup
  have hpage := fun sl (hsl : sl ∈ ⟨p, fr⟩ :: X) => h.page sl (hperm.mem_iff.mpr hsl)
  refine ⟨hpage _ mem_cons_self, fun sl hsl => ⟨hpage sl (mem_cons_of_mem _ hsl), ?_⟩⟩
  rintro rfl
  exact (nodup_cons.mp hnd).1 (mem_map.mpr ⟨sl, hsl, rfl⟩)

theorem Linked.isPage (i : Kind) : ∀ q ∈ addrs (L i), IsPage q := by
  intro q hq
  obtain ⟨sl, hsl, rfl⟩ := mem_map.mp hq
  exact h.page sl (mem_all.mpr ⟨i, hsl⟩)

theorem Linked.disjoint (hij : i ≠ j) : ∀ q ∈ addrs (L i), q ∉ addrs (L j) := by
  have hnd := h.nodup
  unfold all addrs at hnd
  simp only [map_append, nodup_append] at hnd
  obtain ⟨⟨-, -, hpf⟩, -, hpe⟩ := hnd
  have hpe' := fun q (hq : q ∈ addrs (L .part)) => hpe q (mem_append_left _ hq)
  have hfe := fun q (hq : q ∈ addrs (L .full)) => hpe q (mem_append_right _ hq)
  intro q hi hj
  cases i <;> cases j <;> first
    | exact absurd rfl hij
    | exact hpf q hi q hj rfl
    | exact hpf q hj q hi rfl
    | exact hpe' q hi q hj rfl
    | exact hpe' q hj q hi rfl
    | exact hfe q hi q hj rfl
    | exact hfe q hj q hi rfl

theorem Linked.nodup_list (i : Kind) : (addrs (L i)).Nodup := by
  have hnd := h.nodup
  unfold all addrs at hnd
  simp only [map_append, nodup_append] at hnd
  obtain ⟨⟨hp, hf, -⟩, he, -⟩ := hnd
  cases i with
  | part => exact hp
  | full => exact hf
  | empty => exact he

theorem Linked.first (h0 : heads i ≠ 0) : ∃ sl rest, L i = sl :: rest ∧ sl.addr = heads i := by
  have hlist := h.lists i
  cases hL : L i with
  | nil =>
    rw [hL] at hlist
    exact absurd hlist.head_eq_zero h0
  | cons sl rest =>
    rw [hL] at hlist
    exact ⟨sl, rest, rfl, hlist.head_eq.1.symm⟩

end

theorem Linked.replace (hk : ClassFits k) (h : Linked m heads L) (hL : L i = l₁ ++ ⟨p, fr⟩ :: l₂) (ha : a ∈ slotsOf k p)
    (hexc : Mem.Except m m' (Body k p a)) : Linked m' heads (update L i (l₁ ++ ⟨p, fr'⟩ :: l₂)) := by
  have hp : IsPage p := (h.apart (all_split hL)).page
  have haddrs : ∀ j, addrs (update L i (l₁ ++ ⟨p, fr'⟩ :: l₂) j) = addrs (L j) := by
    intro j
    by_cases hj : j = i
    · subst hj
      rw [update_self, hL, addrs_append, addrs_append]
      rfl
    · rw [update_of_ne hj]
  have hperm := addrs_replace hL fr'
  refine ⟨fun j => ?_, hperm.nodup_iff.mpr h.nodup, fun sl hsl => ?_⟩
  · rw [haddrs j]
    exact (h.lists j).body hk hexc hp ha (h.isPage j)
  · have hmem : sl.addr ∈ addrs (all L) := hperm.mem_iff.mp (mem_map.mpr ⟨sl, hsl, rfl⟩)
    obtain ⟨sl', hsl', heq⟩ := mem_map.mp hmem
    rw [← heq]
    exact h.page sl' hsl'

variable (h : Linked m heads L)
include h

/-- Moving a slab keeps the lists linked. -/
theorem Linked.move (heads' : Kind → Nat) (hij : i ≠ j) (hL : L i = l₁ ++ sl :: l₂)
    (hi : heads' i = (listRemove m (heads i) sl.addr).1) (hj : heads' j = sl.addr)
    (hrest : ∀ t, t ≠ i → t ≠ j → heads' t = heads t) :
    Linked (listPush (listRemove m (heads i) sl.addr).2 (heads j) sl.addr).2 heads'
      (update (update L i (l₁ ++ l₂)) j (sl :: L j)) ∧
    Mem.Except m (listPush (listRemove m (heads i) sl.addr).2 (heads j) sl.addr).2 (Links (addrs (all L))) := by
  have hall : ∀ t, ∀ q ∈ addrs (L t), q ∈ addrs (all L) := by
    intro t q hq
    obtain ⟨sl, hsl, rfl⟩ := mem_map.mp hq
    exact mem_addrs hsl
  have hLi : addrs (L i) = addrs l₁ ++ sl.addr :: addrs l₂ := by
    rw [hL, addrs_append]
    rfl
  have hsl : sl.addr ∈ addrs (L i) := by
    rw [hLi]
    exact mem_append_right _ mem_cons_self
  have hpage := h.isPage i sl.addr hsl
  have hlist := h.lists i
  have hpages := h.isPage i
  have hnd := h.nodup_list i
  rw [hLi] at hlist hpages hnd
  obtain ⟨hout, hexc₁⟩ := listed_remove hlist hpages hnd
  rw [← hLi] at hexc₁
  have hother : ∀ t, t ≠ i → Listed (listRemove m (heads i) sl.addr).2 (heads t) (addrs (L t)) := fun t ht =>
    (h.lists t).frame hexc₁ (h.isPage t) (h.isPage i) (h.disjoint ht)
  obtain ⟨hin, hexc₂⟩ := listed_push (hother j hij.symm) hpage (h.isPage j) (h.disjoint hij _ hsl) (h.nodup_list j)
  have hpush : ∀ q ∈ sl.addr :: addrs (L j), IsPage q := by
    intro q hq
    rcases mem_cons.mp hq with rfl | hq
    · exact hpage
    · exact h.isPage j q hq
  have hperm := all_move hij hL
  refine ⟨⟨fun t => ?_, (addrs_perm hperm).nodup_iff.mpr h.nodup, fun sl hsl => h.page sl (hperm.mem_iff.mp hsl)⟩, ?_⟩
  · by_cases htj : t = j
    · subst htj
      rw [update_self, hj]
      exact hin
    rw [update_of_ne htj]
    by_cases hti : t = i
    · subst hti
      rw [update_self, hi]
      have hsub : ∀ q ∈ addrs l₁ ++ addrs l₂, q ∈ addrs (L t) ∧ q ≠ sl.addr := by
        intro q hq
        refine ⟨?_, fun heq => ?_⟩
        · rw [hLi]
          rcases mem_append.mp hq with hq | hq
          · exact mem_append_left _ hq
          · exact mem_append_right _ (mem_cons_of_mem _ hq)
        · exact (nodup_cons.mp (nodup_middle.mp hnd)).1 (heq ▸ hq)
      have hframe := hout.frame hexc₂ (fun q hq => h.isPage t q (hsub q hq).1) hpush fun q hq hmem => by
        rcases mem_cons.mp hmem with heq | hmem
        · exact (hsub q hq).2 heq
        · exact h.disjoint hij q (hsub q hq).1 hmem
      rw [addrs_append]
      exact hframe
    · rw [update_of_ne hti, hrest t hti htj]
      refine (hother t hti).frame hexc₂ (h.isPage t) hpush fun q hq hmem => ?_
      rcases mem_cons.mp hmem with rfl | hmem
      · exact h.disjoint hti _ hq hsl
      · exact h.disjoint htj q hq hmem
  · refine (hexc₁.mono fun x hx => ?_).trans (hexc₂.mono fun x hx => ?_)
    · obtain ⟨q, hq, hx⟩ := hx
      exact ⟨q, hall i q hq, hx⟩
    · obtain ⟨q, hq, hx⟩ := hx
      rcases mem_cons.mp hq with rfl | hq
      · exact ⟨_, hall i _ hsl, hx⟩
      · exact ⟨q, hall j q hq, hx⟩

theorem Linked.frame {w : Nat → Prop} (hexc : Mem.Except m m' w) (hw : ∀ q ∈ addrs (all L), ∀ x, q ≤ x → x < q + 16 → ¬w x) :
    Linked m' heads L := by
  refine ⟨fun i => (h.lists i).congr fun q hq => ?_, h.nodup, h.page⟩
  obtain ⟨sl, hsl, rfl⟩ := mem_map.mp hq
  exact hexc.same (hw _ (mem_addrs hsl))

theorem Linked.push (fr : List Nat) (hp : IsPage p) (hnew : p ∉ addrs (all L)) (hj : heads' j = p)
    (hrest : ∀ t, t ≠ j → heads' t = heads t) :
    Linked (listPush m (heads j) p).2 heads' (update L j (⟨p, fr⟩ :: L j)) ∧
      Mem.Except m (listPush m (heads j) p).2 (Links (p :: addrs (all L))) := by
  have hnot : ∀ t, p ∉ addrs (L t) := by
    intro t hmem
    obtain ⟨sl, hsl, heq⟩ := mem_map.mp hmem
    exact hnew (heq ▸ mem_addrs hsl)
  obtain ⟨hin, hexc⟩ := listed_push (h.lists j) hp (h.isPage j) (hnot j) (h.nodup_list j)
  have hperm := all_push L j ⟨p, fr⟩
  refine ⟨⟨fun t => ?_, ?_, fun sl hsl => ?_⟩, hexc.mono fun x hx => ?_⟩
  · by_cases htj : t = j
    · subst htj
      rw [update_self, hj]
      exact hin
    rw [update_of_ne htj, hrest t htj]
    refine (h.lists t).frame hexc (h.isPage t) (fun q hq => ?_) fun q hq hmem => ?_
    · rcases mem_cons.mp hq with rfl | hq
      · exact hp
      · exact h.isPage j q hq
    · rcases mem_cons.mp hmem with rfl | hmem
      · exact hnot t hq
      · exact h.disjoint htj q hq hmem
  · exact (addrs_perm hperm).nodup_iff.mpr (nodup_cons.mpr ⟨hnew, h.nodup⟩)
  · rcases mem_cons.mp (hperm.mem_iff.mp hsl) with rfl | hsl
    · exact hp
    · exact h.page sl hsl
  · obtain ⟨q, hq, hx⟩ := hx
    rcases mem_cons.mp hq with rfl | hq
    · exact ⟨q, mem_cons_self, hx⟩
    · obtain ⟨sl, hsl, rfl⟩ := mem_map.mp hq
      exact ⟨_, mem_cons_of_mem _ (mem_addrs hsl), hx⟩

end Moves

/-! ### The invariant of a cache -/

/-- The lists, pages and slots of a cache. -/
structure Shape (m : Mem) (k : Nat) (c : Cache) (L : Kind → List SlabPage) (live guarded : List Nat) : Prop where
  size : c.objSize = objSize k
  capacity : c.capacity = cap k
  linked : Linked m c.head L
  slots : Slots m k (all L) live guarded

/-- Which list a slab belongs to. -/
def Fits (k : Nat) : Kind → SlabPage → Prop
  | .part, sl => sl.free ≠ []
  | .full, sl => sl.free = []
  | .empty, sl => sl.free.length = cap k

/-- Between operations the canaries of all live slots stand and every slab is in its list. -/
structure CacheInv (m : Mem) (k : Nat) (c : Cache) (L : Kind → List SlabPage) (live : List Nat) : Prop
    extends Shape m k c L live live where
  fits : ∀ i, ∀ sl ∈ L i, Fits k i sl

section Shapes
variable {m m' : Mem} {k p a : Nat} {c c' : Cache} {L : Kind → List SlabPage} {i j : Kind} {sl : SlabPage}
  {fr live guarded : List Nat} {l₁ l₂ rest : List SlabPage}

theorem Shape.split (h : Shape m k c L live guarded) (hL : L i = l₁ ++ ⟨p, fr⟩ :: l₂) :
    Apart p (all (update L i (l₁ ++ l₂))) ∧ Slots m k (⟨p, fr⟩ :: all (update L i (l₁ ++ l₂))) live guarded := by
  have hperm := all_split hL
  exact ⟨h.linked.apart hperm, h.slots.mem_congr fun sl => hperm.symm.mem_iff⟩

theorem Shape.replaced {live' guarded' fr' : List Nat} (hk : ClassFits k) (h : Shape m k c L live guarded)
    (hL : L i = l₁ ++ ⟨p, fr⟩ :: l₂) (ha : a ∈ slotsOf k p) (hexc : Mem.Except m m' (Body k p a))
    (hslots : Slots m' k (⟨p, fr'⟩ :: all (update L i (l₁ ++ l₂))) live' guarded') :
    Shape m' k c (update L i (l₁ ++ ⟨p, fr'⟩ :: l₂)) live' guarded' where
  size := h.size
  capacity := h.capacity
  linked := h.linked.replace hk hL ha hexc
  slots := hslots.mem_congr fun _ => (all_replace L i ⟨p, fr'⟩ l₁ l₂).mem_iff

theorem Shape.slot_mem (h : Shape m k c L live guarded) (hL : L i = l₁ ++ ⟨p, fr⟩ :: l₂) : SlabPage.Holds m k ⟨p, fr⟩ :=
  (h.split hL).2.holds _ mem_cons_self

section
variable (hk : ClassFits k)
include hk

theorem Shape.pop (h : Shape m k c L live guarded) (hL : L i = l₁ ++ ⟨p, a :: fr⟩ :: l₂) :
    Shape (popped m p) k c (update L i (l₁ ++ ⟨p, fr⟩ :: l₂)) (a :: live) guarded := by
  obtain ⟨hX, hslots⟩ := h.split hL
  have ha : a ∈ slotsOf k p := (h.slot_mem hL).slots a mem_cons_self
  exact h.replaced hk hL ha (popped_except m k p a) (hslots.pop hk hX)

theorem Shape.freed (h : Shape m k c L live live) (hL : L i = l₁ ++ ⟨p, fr⟩ :: l₂) (ha : a ∈ slotsOf k p) (hfr : a ∉ fr) :
    Shape (freed m p a (objSize k)) k c (update L i (l₁ ++ ⟨p, a :: fr⟩ :: l₂)) (live.erase a) (live.erase a) := by
  obtain ⟨hX, hslots⟩ := h.split hL
  exact h.replaced hk hL ha (freed_except hk m p a) (hslots.freed hk hX ha hfr)

theorem Shape.inSlot (h : Shape m k c L live guarded) (hsl : ⟨p, fr⟩ ∈ all L) (ha : a ∈ slotsOf k p) (hfr : a ∉ fr)
    (hslot : Mem.Except m m' (InSlot k a)) (hcheck : canaryCheck m' a (objSize k)) :
    Shape m' k c L live (a :: guarded) := by
  obtain ⟨i, hi⟩ := mem_all.mp hsl
  obtain ⟨l₁, l₂, hL⟩ := append_of_mem hi
  obtain ⟨hX, hslots⟩ := h.split hL
  have hdone := h.replaced hk hL ha (hslot.mono fun x hx => .inr hx) (hslots.inSlot hk hX ha hfr hslot hcheck)
  rwa [← hL, update_eq_self] at hdone

theorem Shape.move (h : Shape m k c L live guarded) (hij : i ≠ j) (hL : L i = l₁ ++ sl :: l₂) (hp : sl.addr = p) :
    Shape (c.moved m i j p).2 k (c.moved m i j p).1 (update (update L i (l₁ ++ l₂)) j (sl :: L j)) live guarded ∧
    (all (update (update L i (l₁ ++ l₂)) j (sl :: L j))).Perm (all L) ∧
    Mem.Except m (c.moved m i j p).2 (InPages (addrs (all L))) := by
  subst hp
  have hhead : ∀ t, (c.moved m i j sl.addr).1.head t =
      if t = j then sl.addr else if t = i then (listRemove m (c.head i) sl.addr).1 else c.head t := by
    intro t
    rw [Cache.moved_fst, Cache.head_setHead, Cache.head_setHead]
  obtain ⟨hlinked, hexc⟩ := h.linked.move (c.moved m i j sl.addr).1.head hij hL
    (by rw [hhead, if_neg hij, if_pos rfl]) (by rw [hhead, if_pos rfl]) fun t hti htj => by rw [hhead,
      if_neg htj, if_neg hti]
  rw [← Cache.moved_snd] at hlinked hexc
  have hpages : ∀ q ∈ addrs (all L), IsPage q := by
    intro q hq
    obtain ⟨sl, hsl, rfl⟩ := mem_map.mp hq
    exact h.linked.page sl hsl
  have hperm := all_move hij hL
  have hsize : (c.moved m i j sl.addr).1.objSize = c.objSize := by
    rw [Cache.moved_fst, Cache.objSize_setHead, Cache.objSize_setHead]
  have hcap : (c.moved m i j sl.addr).1.capacity = c.capacity := by
    rw [Cache.moved_fst, Cache.capacity_setHead, Cache.capacity_setHead]
  refine ⟨⟨hsize.trans h.size, hcap.trans h.capacity, hlinked, ?_⟩, hperm, hexc.mono fun x hx => hx.inPages⟩
  exact (h.slots.links hk hexc h.linked.page hpages).mem_congr fun sl => hperm.mem_iff

end

theorem fits_move (hij : i ≠ j) (hj : Fits k j sl) (hi : ∀ x ∈ l₁ ++ l₂, Fits k i x)
    (hfits : ∀ t, t ≠ i → ∀ x ∈ L t, Fits k t x) :
    ∀ t, ∀ x ∈ update (update L i (l₁ ++ l₂)) j (sl :: L j) t, Fits k t x := by
  intro t x hx
  by_cases htj : t = j
  · subst htj
    rw [update_self] at hx
    rcases mem_cons.mp hx with rfl | hx
    · exact hj
    · exact hfits t hij.symm x hx
  rw [update_of_ne htj] at hx
  by_cases hti : t = i
  · subst hti
    rw [update_self] at hx
    exact hi x hx
  · rw [update_of_ne hti] at hx
    exact hfits t hti x hx

end Shapes

end Moxide.Slab
