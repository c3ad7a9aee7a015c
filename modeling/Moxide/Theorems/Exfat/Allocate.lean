import Moxide.Theorems.Exfat.Volume

/-! Taking and giving back clusters. -/

namespace Moxide.Exfat.ExfatVol
open Lib List Option

/-- What allocation rests on: the bitmap is a chain, and the bits of free clusters are clear. -/
structure Consistent (v : ExfatVol) : Prop where
  geometry : v.Geometry
  bitmap : ∀ b, v.bitmap = some b → ∃ l, v.Linked b.firstCluster l
  clear : ∀ c x, v.InRange c → v.fatEntry c = FAT_FREE → v.bitmapByte c = some x →
    (v.data x).toNat.testBit ((c - 2) % 8) = false

/-- A cluster that the FAT has as free. -/
def Free (v : ExfatVol) (c : Nat) : Prop := v.InRange c ∧ v.fatEntry c = FAT_FREE

/-- The places that belong to a cluster, as addresses and bits: its FAT entry, its bit in the bitmap and its bytes. -/
def Place (v : ExfatVol) (c x i : Nat) : Prop :=
  v.InFatEntry c x ∨ (v.bitmapByte c = some x ∧ i = (c - 2) % 8) ∨ v.InCluster c x

/-- Only places of free clusters have changed, and all of these but `cs` are free again. -/
structure Holds (v : ExfatVol) (cs : List Nat) (v' : ExfatVol) : Prop where
  shape : Shape v v'
  bits : Mem.BitsExcept v.data v'.data fun x i => ∃ c, v.Free c ∧ v.Place c x i
  taken : ∀ c ∈ cs, v.Free c
  free : ∀ c, v.Free c → c ∉ cs → v'.fatEntry c = FAT_FREE ∧
    ∀ x, v.bitmapByte c = some x → (v'.data x).toNat.testBit ((c - 2) % 8) = false

variable {v v' v'' : ExfatVol} {c c' d first i n x : Nat} {cs cs' l : List Nat}

theorem WellFormed.consistent (h : v.WellFormed) : v.Consistent where
  geometry := h.geometry
  bitmap b hb := h.linked _ _ (.bitmap hb)
  clear c x hr hfree hx := by
    have hsome : v.bitmap.isSome := by
      rw [bitmapByte] at hx
      cases hb : v.bitmap with
      | none =>
        rw [hb] at hx
        cases hx
      | some b => rfl
    have hbit := h.agree hsome c hr
    rw [bitmapClusterAllocated, hx, map_some, hfree, bitmapBit] at hbit
    refine (Mem.and_bit_eq_zero (Nat.mod_lt _ (by decide)) _).mp ?_
    simpa using hbit

/-! ### Places -/

namespace Consistent

section
variable (hv : v.Consistent)
include hv

section
variable (h : v.bitmapByte c = some x)
include h

theorem bitmapByte_spec : 2 ≤ c ∧ ∃ b l k, v.bitmap = some b ∧
    v.Linked b.firstCluster l ∧ l[(c - 2) / 8 / v.bytesPerCluster]? = some k ∧
      x = v.heapAt k + (c - 2) / 8 % v.bytesPerCluster := by
  rw [bitmapByte] at h
  cases hb : v.bitmap with
  | none =>
    rw [hb] at h
    cases h
  | some b =>
    obtain ⟨l, hl⟩ := hv.bitmap b hb
    rw [hb] at h
    split_ifs at h with h2
    obtain ⟨h, -⟩ := filter_eq_some_iff.mp h
    rw [extentAbsOff] at h
    split_ifs at h with hlen
    rw [dirEntryAbsOff, hl.clusterChain_eq hv.geometry] at h
    obtain ⟨k, hk, hoff⟩ := bind_eq_some_iff.mp h
    rw [hv.geometry.clusterOffset_eq (hl.inRange k (mem_of_getElem? hk)), map_some, some_inj] at hoff
    exact ⟨not_lt.mp h2, b, l, k, rfl, hl, hk, hoff.symm⟩

theorem bitmapByte_inCluster : ∃ b l k, v.bitmap = some b ∧ v.Linked b.firstCluster l ∧ k ∈ l ∧ v.InCluster k x := by
  obtain ⟨_, b, l, k, hb, hl, hk, rfl⟩ := hv.bitmapByte_spec h
  refine ⟨b, l, k, hb, hl, mem_of_getElem? hk, Nat.le_add_right _ _, ?_⟩
  exact Nat.add_lt_add_left (Nat.mod_lt _ hv.geometry.pos) _

/-- Two clusters have different bits. -/
theorem bit_inj (h' : v.bitmapByte c' = some x) (hbit : (c - 2) % 8 = (c' - 2) % 8) : c = c' := by
  obtain ⟨h2, b, l, k, hb, hl, hk, hx⟩ := hv.bitmapByte_spec h
  obtain ⟨h2', b', l', k', hb', hl', hk', hx'⟩ := hv.bitmapByte_spec h'
  obtain rfl := some_inj.mp (hb.symm.trans hb')
  obtain rfl := hl.det hv.geometry hl'
  have hlt {m : Nat} : m % v.bytesPerCluster < v.bytesPerCluster := Nat.mod_lt _ hv.geometry.pos
  have hkk : k = k' := by
    refine Geometry.cluster_inj (x := x) (hl.inRange k (mem_of_getElem? hk)) (hl.inRange k' (mem_of_getElem? hk'))
      ⟨?_, ?_⟩ ⟨?_, ?_⟩
    · omega
    · rw [hx]
      exact Nat.add_lt_add_left hlt _
    · omega
    · rw [hx']
      exact Nat.add_lt_add_left hlt _
  have hmod : (c - 2) / 8 % v.bytesPerCluster = (c' - 2) / 8 % v.bytesPerCluster := by
    rw [hkk] at hx
    omega
  have hdiv : (c - 2) / 8 / v.bytesPerCluster = (c' - 2) / 8 / v.bytesPerCluster := by
    rw [← hkk] at hk'
    obtain ⟨hi, hk⟩ := List.getElem?_eq_some_iff.mp hk
    obtain ⟨hi', hk'⟩ := List.getElem?_eq_some_iff.mp hk'
    exact (hl.nodup hv.geometry).getElem_inj_iff.mp (hk.trans hk'.symm)
  have hindex : (c - 2) / 8 = (c' - 2) / 8 := by
    rw [← Nat.div_add_mod ((c - 2) / 8) v.bytesPerCluster, hdiv, hmod, Nat.div_add_mod]
  omega

end

section
variable (hx : v.bitmapByte c = some x)
include hx

theorem not_inFatEntry (hr : v.InRange c') : ¬v.InFatEntry c' x := by
  obtain ⟨b, l, k, hb, hl, hk, hin⟩ := hv.bitmapByte_inCluster hx
  exact fun hfat => hv.geometry.not_inCluster hr hfat hin

theorem fatEnd_le : v.fatEnd ≤ x := by
  obtain ⟨b, l, k, hb, hl, hk, hin⟩ := hv.bitmapByte_inCluster hx
  exact hv.geometry.fatEnd_le.trans hin.1

theorem not_inCluster (hf : v.Free c') : ¬v.InCluster c' x := by
  obtain ⟨b, l, k, hb, hl, hk, hin⟩ := hv.bitmapByte_inCluster hx
  intro hin'
  obtain rfl := Geometry.cluster_inj (hl.inRange k hk) hf.1 hin hin'
  exact hl.used k hk hf.2

end

theorem place_fat (hp : v.Place c x i) (hr : v.InRange c') (hx : v.InFatEntry c' x) : c = c' := by
  rcases hp with hfat | ⟨hbit, -⟩ | hin
  · exact Geometry.fatEntry_inj hfat hx
  · exact absurd hx (hv.not_inFatEntry hbit hr)
  · exact absurd hin (hv.geometry.not_inCluster hr hx)

theorem place_bit (hf : v.Free c) (hp : v.Place c x i) (hx : v.bitmapByte c' = some x) (hi : i = (c' - 2) % 8) : c = c' := by
  rcases hp with hfat | ⟨hbit, hi'⟩ | hin
  · exact absurd hfat (hv.not_inFatEntry hx hf.1)
  · exact hv.bit_inj hbit hx (hi'.symm.trans hi)
  · exact absurd hin (hv.not_inCluster hx hf)

end

end Consistent

/-! ### What is the same while clusters are held -/

namespace Holds

theorem refl (v : ExfatVol) (hv : v.Consistent) : Holds v [] v where
  shape := .refl v
  bits := .refl _ _
  taken c hc := by cases hc
  free c hf _ := ⟨hf.2, fun x hx => hv.clear c x hf.1 hf.2 hx⟩

theorem mem_congr (h : Holds v cs v') (heq : ∀ c, c ∈ cs' ↔ c ∈ cs) : Holds v cs' v' where
  shape := h.shape
  bits := h.bits
  taken c hc := h.taken c ((heq c).mp hc)
  free c hf hc := h.free c hf fun hmem => hc ((heq c).mpr hmem)

theorem cons (h : Holds v cs v') (hf : v.Free c) : Holds v (c :: cs) v' where
  shape := h.shape
  bits := h.bits
  taken k hk := by
    rcases mem_cons.mp hk with rfl | hk
    · exact hf
    · exact h.taken k hk
  free k hk hmem := h.free k hk fun hin => hmem (mem_cons_of_mem _ hin)

section
variable (hv : v.Consistent)
include hv

section
variable (h : Holds v cs v')
include h

theorem fatEntry_eq (hr : v.InRange c) (hused : v.fatEntry c ≠ FAT_FREE) : v'.fatEntry c = v.fatEntry c := by
  refine h.shape.fatEntry_eq (h.bits.same fun x i hlo hhi hin => ?_)
  obtain ⟨k, hf, hp⟩ := hin
  exact hused (hv.place_fat hp hr ⟨hlo, hhi⟩ ▸ hf.2)

theorem linked (hl : v.Linked first l) : v'.Linked first l :=
  hl.congr h.shape fun c hc => h.fatEntry_eq hv (hl.inRange c hc) (hl.used c hc)

theorem bitmapByte_eq (c : Nat) : v'.bitmapByte c = v.bitmapByte c := by
  have hbitmap : v'.bitmap = v.bitmap := by
    obtain ⟨_, hs⟩ := h.shape
    rw [hs]
  have hlen : v'.dataLen = v.dataLen := by
    obtain ⟨_, hs⟩ := h.shape
    rw [hs]
  rw [bitmapByte, bitmapByte, hbitmap, hlen]
  cases hb : v.bitmap with
  | none => rfl
  | some b =>
    obtain ⟨l, hl⟩ := hv.bitmap b hb
    have hchain : v'.clusterChain b.firstCluster = v.clusterChain b.firstCluster := by
      rw [(h.linked hv hl).clusterChain_eq (h.shape.geometry hv.geometry), hl.clusterChain_eq hv.geometry]
    dsimp only
    rw [extentAbsOff, extentAbsOff, h.shape.dirEntryAbsOff_eq hchain]

theorem free_of_free (hf : v'.Free c) : v.Free c := by
  have hr := h.shape.inRange.mp hf.1
  by_cases hfree : v.fatEntry c = FAT_FREE
  · exact ⟨hr, hfree⟩
  · exact absurd ((h.fatEntry_eq hv hr hfree).symm.trans hf.2) hfree

theorem place_iff : v'.Place c x i ↔ v.Place c x i := by
  rw [Place, Place, h.bitmapByte_eq hv, h.shape.inFatEntry, h.shape.inCluster]

theorem consistent (hused : ∀ c ∈ cs, v'.fatEntry c ≠ FAT_FREE) : v'.Consistent where
  geometry := h.shape.geometry hv.geometry
  bitmap b hb := by
    have hbitmap : v'.bitmap = v.bitmap := by
      obtain ⟨_, hs⟩ := h.shape
      rw [hs]
    obtain ⟨l, hl⟩ := hv.bitmap b (hbitmap ▸ hb)
    exact ⟨l, h.linked hv hl⟩
  clear c x hr hfree hx := by
    rw [h.bitmapByte_eq hv] at hx
    exact (h.free c (h.free_of_free hv ⟨hr, hfree⟩) fun hc => hused c hc hfree).2 x hx

theorem trans (h' : Holds v' [] v'') : Holds v cs v'' where
  shape := h.shape.trans h'.shape
  bits := by
    refine h.bits.trans (h'.bits.mono fun x i hin => ?_)
    obtain ⟨c, hf, hp⟩ := hin
    exact ⟨c, h.free_of_free hv hf, (h.place_iff hv).mp hp⟩
  taken := h.taken
  free c hf hc := by
    have hfree : v'.Free c := ⟨h.shape.inRange.mpr hf.1, (h.free c hf hc).1⟩
    obtain ⟨hfat, hbit⟩ := h'.free c hfree not_mem_nil
    refine ⟨hfat, fun x hx => hbit x ?_⟩
    rw [h.bitmapByte_eq hv]
    exact hx

/-! ### Changes to held clusters -/

/-- A write to the places of a cluster that is held. -/
theorem touch (hc : c ∈ cs) (hs : Shape v' v'') (hd : Mem.BitsExcept v'.data v''.data (v.Place c)) : Holds v cs v'' where
  shape := h.shape.trans hs
  bits := h.bits.trans (hd.mono fun x i hp => ⟨c, h.taken c hc, hp⟩)
  taken := h.taken
  free k hf hk := by
    have hne : c ≠ k := fun heq => hk (heq ▸ hc)
    have hoff : v'.fatOff k = v.fatOff k := by
      obtain ⟨_, hs⟩ := h.shape
      rw [hs]
      rfl
    obtain ⟨hfat, hbit⟩ := h.free k hf hk
    refine ⟨(hs.fatEntry_eq (hd.same fun x i hlo hhi hp => ?_)).trans hfat, fun x hx => ?_⟩
    · rw [hoff] at hlo hhi
      exact hne (hv.place_fat hp hf.1 ⟨hlo, hhi⟩)
    · rw [hd x _ (Nat.mod_lt _ (by decide)) fun hp => hne (hv.place_bit (h.taken c hc) hp hx rfl)]
      exact hbit x hx

theorem setFatEntry (hc : c ∈ cs) (d : Nat) : Holds v cs (v'.setFatEntry c d) := by
  have hr := h.shape.inRange.mpr (h.taken c hc).1
  refine h.touch hv hc (.setFatEntry v' c d) ?_
  rw [setFatEntry_data (h.shape.geometry hv.geometry) hr]
  exact (Mem.store_except _ _ _ _).bits fun x i hx => .inl (h.shape.inFatEntry.mp hx)

theorem setBitmapClusterAllocated (hc : c ∈ cs) (b : Bool) : Holds v cs (v'.setBitmapClusterAllocated c b) := by
  refine h.touch hv hc (.setBitmapClusterAllocated v' c b) ?_
  rw [ExfatVol.setBitmapClusterAllocated, h.bitmapByte_eq hv]
  cases hx : v.bitmapByte c with
  | none => exact .refl _ _
  | some x =>
    intro y i hi hp
    dsimp only
    by_cases hy : y = x
    · have hne : (c - 2) % 8 ≠ i := fun heq => hp (.inr (.inl ⟨hy ▸ hx, heq.symm⟩))
      have hlt : (c - 2) % 8 < 8 := Nat.mod_lt _ (by decide)
      rw [hy, Function.update_self, bitmapBit]
      cases b with
      | true => rw [if_pos rfl, Mem.testBit_setBit hlt, decide_eq_false hne, Bool.or_false]
      | false =>
        rw [if_neg Bool.false_ne_true, Mem.testBit_clearBit hlt _ hi, decide_eq_false hne, Bool.not_false, Bool.and_true]
    · rw [Function.update_of_ne hy]

theorem testBit_clear (hx : v.bitmapByte c = some x) :
    ((v'.setBitmapClusterAllocated c false).data x).toNat.testBit ((c - 2) % 8) = false := by
  have hlt : (c - 2) % 8 < 8 := Nat.mod_lt _ (by decide)
  rw [ExfatVol.setBitmapClusterAllocated, h.bitmapByte_eq hv, hx]
  dsimp only
  rw [Function.update_self, if_neg Bool.false_ne_true, bitmapBit, Mem.testBit_clearBit hlt _ hlt, decide_eq_true rfl,
    Bool.not_true, Bool.and_false]

theorem write (hc : c ∈ cs) {d : Mem} (hd : Mem.Except v'.data d fun x => v.InCluster c x) :
    Holds v cs { v' with data := d } :=
  h.touch hv hc ⟨d, rfl⟩ (hd.bits fun _ _ hx => .inr (.inr hx))

theorem zeroCluster (hc : c ∈ cs) : Holds v cs (v'.zeroCluster c) := by
  have g := h.shape.geometry hv.geometry
  rw [ExfatVol.zeroCluster, g.clusterOffset_eq (h.shape.inRange.mpr (h.taken c hc).1)]
  exact h.write hv hc fun x hx => Mem.fill_except _ _ _ _ x fun hin => hx (h.shape.inCluster.mp hin)

theorem linkClusters (hl : ∀ c ∈ l, c ∈ cs) : Holds v cs (v'.linkClusters l) := by
  induction l generalizing v' with
  | nil => exact h
  | cons a l ih =>
    have ha := hl a mem_cons_self
    cases l with
    | nil => exact h.setFatEntry hv ha FAT_EOC
    | cons b l => exact ih (h.setFatEntry hv ha b) fun c hc => hl c (mem_cons_of_mem _ hc)

theorem fillClusters (contents : List UInt8) (hl : ∀ c ∈ l, c ∈ cs) : Holds v cs (v'.fillClusters contents l n) := by
  induction l generalizing v' n with
  | nil => exact h
  | cons a l ih =>
    have ha := hl a mem_cons_self
    have hl' : ∀ c ∈ l, c ∈ cs := fun c hc => hl c (mem_cons_of_mem _ hc)
    have g := h.shape.geometry hv.geometry
    have hoff := g.clusterOffset_eq (h.shape.inRange.mpr (h.taken a ha).1)
    simp only [ExfatVol.fillClusters, hoff]
    refine ih (h.write hv ha fun x hx => Mem.write_except _ _ _ x fun hin => hx ?_) hl'
    have hlen : (List.take (min v'.bytesPerCluster (contents.length - n)) (contents.drop n)).length ≤ v'.bytesPerCluster :=
      (length_take_le _ _).trans (Nat.min_le_left _ _)
    exact h.shape.inCluster.mp ⟨hin.1, Nat.lt_of_lt_of_le hin.2 (Nat.add_le_add_left hlen _)⟩

theorem fatEntry_setBitmap (b : Bool) (hr : v.InRange c) :
    (v'.setBitmapClusterAllocated d b).fatEntry c = v'.fatEntry c := by
  have g := h.shape.geometry hv.geometry
  have hend : v'.fatEnd = v.fatEnd := by
    obtain ⟨_, hs⟩ := h.shape
    rw [hs]
    rfl
  refine g.fatEntry_of_heap (.setBitmapClusterAllocated v' d b) (w := fun x _ => v.bitmapByte d = some x) ?_ ?_
    (h.shape.inRange.mpr hr)
  · rw [ExfatVol.setBitmapClusterAllocated, h.bitmapByte_eq hv]
    cases v.bitmapByte d with
    | none => exact .refl _ _
    | some x =>
      intro y i _ hne
      dsimp only
      rw [Function.update_of_ne fun heq => hne (congrArg some heq.symm)]
  · intro x _ hx
    rw [hend]
    exact hv.fatEnd_le hx

end

end

theorem fatEntry_zeroCluster (g : v.Geometry) (hr : v.InRange c) (hd : v.InRange d) :
    (v.zeroCluster d).fatEntry c = v.fatEntry c := by
  refine g.fatEntry_of_heap (.zeroCluster v d) (w := fun x _ => v.InCluster d x) ?_ ?_ hr
  · rw [ExfatVol.zeroCluster, g.clusterOffset_eq hd]
    exact (Mem.fill_except _ _ _ _).bits fun x _ hx => hx
  · exact fun x _ hx => g.fatEnd_le.trans hx.1

theorem drop (h : Holds v (c :: cs) v') (hfat : v'.fatEntry c = FAT_FREE)
    (hbit : ∀ x, v.bitmapByte c = some x → (v'.data x).toNat.testBit ((c - 2) % 8) = false) : Holds v cs v' where
  shape := h.shape
  bits := h.bits
  taken k hk := h.taken k (mem_cons_of_mem _ hk)
  free k hf hk := by
    by_cases heq : k = c
    · rw [heq]
      exact ⟨hfat, hbit⟩
    · exact h.free k hf fun hmem => (mem_cons.mp hmem).elim heq hk

/-- Clusters given back are held no more. -/
theorem freeAllocatedClusters (hv : v.Consistent) (h : Holds v (l ++ cs) v') : Holds v cs (v'.freeAllocatedClusters l) := by
  induction l generalizing v' with
  | nil => exact h
  | cons c l ih =>
    have hc : c ∈ c :: l ++ cs := mem_cons_self
    have hr := (h.taken c hc).1
    have hfat := h.setFatEntry hv hc FAT_FREE
    refine ih ((hfat.setBitmapClusterAllocated hv hc false).drop ?_ fun x hx => hfat.testBit_clear hv hx)
    rw [hfat.fatEntry_setBitmap hv false hr]
    exact fatEntry_setFatEntry (h.shape.geometry hv.geometry) (h.shape.inRange.mpr hr) (by decide)

/-- Where nothing is held, the bytes outside of free clusters are as before. -/
theorem restored (hv : v.Consistent) (h : Holds v [] v') (hx : ∀ c, v.Free c → ¬v.InCluster c x) : v'.data x = v.data x := by
  by_cases hfat : ∃ c, v.Free c ∧ v.InFatEntry c x
  · obtain ⟨c, hf, hin⟩ := hfat
    have hoff : v'.fatOff c = v.fatOff c := by
      obtain ⟨_, hs⟩ := h.shape
      rw [hs]
      rfl
    have hload : v'.data.load (v.fatOff c) 4 = v.data.load (v.fatOff c) 4 := by
      rw [← hv.geometry.fatEntry_eq hf.1, hf.2, ← hoff,
        ← (h.shape.geometry hv.geometry).fatEntry_eq (h.shape.inRange.mpr hf.1)]
      exact (h.free c hf not_mem_nil).1
    exact Mem.Same.of_load_eq hload x hin.1 hin.2
  · refine Mem.byte_ext fun i hi => ?_
    by_cases hbit : ∃ c, v.Free c ∧ v.bitmapByte c = some x ∧ i = (c - 2) % 8
    · obtain ⟨c, hf, hc, rfl⟩ := hbit
      rw [(h.free c hf not_mem_nil).2 x hc, hv.clear c x hf.1 hf.2 hc]
    refine h.bits x i hi fun hin => ?_
    obtain ⟨c, hf, hp⟩ := hin
    rcases hp with hin | hin | hin
    · exact hfat ⟨c, hf, hin⟩
    · exact hbit ⟨c, hf, hin⟩
    · exact hx c hf hin

end Holds

/-- The clusters `l` were free and are in use. -/
structure Taken (v : ExfatVol) (l : List Nat) (v' : ExfatVol) : Prop where
  holds : Holds v l v'
  nodup : l.Nodup
  used : ∀ c ∈ l, v'.fatEntry c ≠ FAT_FREE

theorem Taken.alloc (hv : v.Consistent) (h : Taken v l v') (ha : v'.allocCluster = (v'', some c)) :
    Taken v (l ++ [c]) v'' ∧ v''.fatEntry c = FAT_EOC := by
  have g := h.holds.shape.geometry hv.geometry
  rw [allocCluster] at ha
  cases hfind : (List.range' 2 (v'.maxClusterExclusive - 2)).find? v'.clusterFree with
  | none =>
    rw [hfind] at ha
    cases ha
  | some k =>
    rw [hfind] at ha
    cases ha
    have hmem := mem_range'_1.mp (mem_of_find?_eq_some hfind)
    have hr : v'.InRange c := by
      rw [g.max_eq] at hmem
      exact ⟨hmem.1, by omega⟩
    have hfat : v'.fatEntry c = FAT_FREE := by
      have htest := find?_some hfind
      rw [clusterFree, Bool.and_eq_true, beq_iff_eq] at htest
      exact htest.1
    have hf : v.Free c := h.holds.free_of_free hv ⟨hr, hfat⟩
    have hnew : c ∉ l := fun hc => h.used c hc hfat
    have hc : c ∈ c :: l := mem_cons_self
    have h₁ := (h.holds.cons hf).setFatEntry hv hc FAT_EOC
    have h₂ := h₁.setBitmapClusterAllocated hv hc true
    have h₃ := h₂.zeroCluster hv hc
    -- only the first of the three steps is in the FAT
    have hentry {k : Nat} (hk : v.InRange k) :
        (((v'.setFatEntry c FAT_EOC).setBitmapClusterAllocated c true).zeroCluster c).fatEntry k =
          (v'.setFatEntry c FAT_EOC).fatEntry k := by
      rw [Holds.fatEntry_zeroCluster (h₂.shape.geometry hv.geometry) (h₂.shape.inRange.mpr hk) (h₂.shape.inRange.mpr hf.1),
        h₁.fatEntry_setBitmap hv true hk]
    have heoc : (((v'.setFatEntry c FAT_EOC).setBitmapClusterAllocated c true).zeroCluster c).fatEntry c = FAT_EOC := by
      rw [hentry hf.1, fatEntry_setFatEntry g hr (by decide)]
    refine ⟨⟨h₃.mem_congr fun k => ?_, ?_, ?_⟩, heoc⟩
    · rw [mem_append, mem_singleton, mem_cons, or_comm]
    · rw [nodup_append]
      refine ⟨h.nodup, nodup_singleton c, fun a ha b hb heq => hnew ?_⟩
      rw [← mem_singleton.mp hb, ← heq]
      exact ha
    · intro k hk
      rcases mem_append.mp hk with hk | hk
      · have hne : k ≠ c := fun heq => hnew (heq ▸ hk)
        rw [hentry (h.holds.taken k hk).1, fatEntry_setFatEntry_ne g hr hne]
        exact h.used k hk
      · rw [mem_singleton.mp hk, heoc]
        decide

theorem allocCluster_none (ha : v.allocCluster = (v', none)) : v' = v := by
  rw [allocCluster] at ha
  cases hfind : (List.range' 2 (v.maxClusterExclusive - 2)).find? v.clusterFree with
  | none =>
    rw [hfind] at ha
    cases ha
    rfl
  | some k =>
    rw [hfind] at ha
    cases ha

/-- The loop takes `n` clusters more, or gives all back. -/
theorem Taken.allocClusters (hv : v.Consistent) (h : Taken v l v') (n : Nat) :
    (∃ u l', v'.allocClusters l n = (u, .ok l') ∧ Taken v l' u ∧ l'.length = l.length + n) ∨
      ∃ u, v'.allocClusters l n = (u, .error (-28)) ∧ Holds v [] u := by
  induction n generalizing l v' with
  | zero => exact .inl ⟨v', l, rfl, h, rfl⟩
  | succ n ih =>
    rw [ExfatVol.allocClusters]
    cases ha : v'.allocCluster with
    | mk u r =>
      cases r with
      | none =>
        obtain rfl := allocCluster_none ha
        refine .inr ⟨_, rfl, Holds.freeAllocatedClusters hv ?_⟩
        rw [append_nil]
        exact h.holds
      | some c =>
        rcases ih (h.alloc hv ha).1 with ⟨w, l', hok, ht, hlen⟩ | herr
        · refine .inl ⟨w, l', hok, ht, ?_⟩
          rw [hlen, length_append, length_singleton]
          omega
        · exact .inr herr

theorem Taken.nil (hv : v.Consistent) : Taken v [] v := ⟨.refl v hv, nodup_nil, fun c hc => by cases hc⟩

end Moxide.Exfat.ExfatVol
