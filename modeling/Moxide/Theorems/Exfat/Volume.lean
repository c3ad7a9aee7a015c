import Moxide.Exfat

/-! Where the parts of a volume lie, and the chains of its clusters. An address belongs to at most one FAT entry or one
    cluster. -/

namespace Moxide.Exfat.ExfatVol
open Lib List Option

/-- The number of a cluster of the heap. -/
def InRange (v : ExfatVol) (c : Nat) : Prop := 2 ≤ c ∧ c < v.clusterCount + 2

instance (v : ExfatVol) (c : Nat) : Decidable (v.InRange c) := inferInstanceAs (Decidable (_ ∧ _))

/-- The FAT has an entry for every cluster and lies before the heap, and all clusters lie inside the image; the numbers of
    the clusters are below the marks of the FAT. -/
structure Geometry (v : ExfatVol) : Prop where
  cluster : v.bytesPerCluster = v.secsPerCluster * v.bytesPerSector
  pos : 0 < v.bytesPerCluster
  marks : v.clusterCount + 2 ≤ FAT_BAD
  fat : v.fatOff (v.clusterCount + 2) ≤ v.fatEnd
  heap : v.fatEnd ≤ v.clusterHeapOff * v.bytesPerSector
  image : v.clusterHeapOff * v.bytesPerSector + v.clusterCount * v.bytesPerCluster ≤ v.dataLen

/-- The chain from a cluster to an end mark. -/
inductive Linked (v : ExfatVol) : Nat → List Nat → Prop
  | last {c : Nat} (hr : v.InRange c) (hend : FAT_BAD ≤ v.fatEntry c) : Linked v c [c]
  | link {c : Nat} {l : List Nat} (hr : v.InRange c) (h : Linked v (v.fatEntry c) l) : Linked v c (c :: l)

/-- Volumes that differ in their bytes only. -/
def Shape (v v' : ExfatVol) : Prop := ∃ d, v' = { v with data := d }

/-- Where a cluster starts in the image. -/
def heapAt (v : ExfatVol) (c : Nat) : Nat := v.clusterHeapOff * v.bytesPerSector + (c - 2) * v.bytesPerCluster

def InCluster (v : ExfatVol) (c x : Nat) : Prop := v.heapAt c ≤ x ∧ x < v.heapAt c + v.bytesPerCluster

def InFatEntry (v : ExfatVol) (c x : Nat) : Prop := v.fatOff c ≤ x ∧ x < v.fatOff c + 4

/-- The first clusters of directories. -/
inductive IsDir (v : ExfatVol) : Nat → Prop
  | root : IsDir v v.rootCluster
  | entry {dir : Nat} {e : DirEntry} (hdir : IsDir v dir) (he : e ∈ v.entries dir) (hd : e.isDir = true) :
    IsDir v e.firstCluster

/-- What a chain belongs to. -/
inductive Owner
  | bitmap
  | upcase
  | root
  | entry (dir primaryOff : Nat)

inductive Owns (v : ExfatVol) : Owner → Nat → Prop
  | bitmap {b : ClusteredExtent} (hb : v.bitmap = some b) : Owns v .bitmap b.firstCluster
  | upcase {u : ClusteredExtent} (hu : v.upcase = some u) : Owns v .upcase u.firstCluster
  | root : Owns v .root v.rootCluster
  | entry {dir : Nat} {e : DirEntry} (hdir : v.IsDir dir) (he : e ∈ v.entries dir)
    (hd : e.isDir = true ∨ 2 ≤ e.firstCluster) : Owns v (.entry dir e.primaryOff) e.firstCluster

structure WellFormed (v : ExfatVol) : Prop where
  geometry : v.Geometry
  /-- Every chain is linked through the FAT from its first cluster to an end mark. -/
  linked : ∀ o first, v.Owns o first → ∃ l, v.Linked first l
  /-- No cluster is in two chains. -/
  disjoint : ∀ o o' first first', v.Owns o first → v.Owns o' first' → o ≠ o' →
    (v.clusterChain first).Disjoint (v.clusterChain first')
  /-- The bitmap has a bit for every cluster, and it is clear for those with a free entry in the FAT. -/
  agree : v.bitmap.isSome = true → ∀ c, v.InRange c →
    v.bitmapClusterAllocated c = some (decide (v.fatEntry c ≠ FAT_FREE))
  /-- From the end mark of a directory on there are only zeros. -/
  ended : ∀ dir, v.IsDir dir → ∀ b ∈ (v.readChain dir).drop (findEodOffset (v.readChain dir)), b = 0

variable {v v' v'' : ExfatVol} {c c' d first n off x : Nat} {l l' : List Nat}

/-! ### Addresses -/

namespace Geometry

section
variable (g : v.Geometry)
include g

theorem max_eq : v.maxClusterExclusive = v.clusterCount + 2 := by
  have := g.marks
  simp only [FAT_BAD, maxClusterExclusive] at this ⊢
  omega

theorem lt_bad (hr : v.InRange c) : c < FAT_BAD := lt_of_lt_of_le hr.2 g.marks

theorem fatOff_le (hr : v.InRange c) : v.fatOff c + 4 ≤ v.fatEnd := by
  have hle : v.fatOff c + 4 ≤ v.fatOff (v.clusterCount + 2) := by
    have := hr.2
    simp only [fatOff]
    omega
  exact hle.trans g.fat

theorem fatEnd_le : v.fatEnd ≤ v.heapAt c := g.heap.trans (Nat.le_add_right _ _)

variable (hr : v.InRange c)
include hr

theorem heapAt_le : v.heapAt c + v.bytesPerCluster ≤ v.dataLen := by
  have hle : (c - 2 + 1) * v.bytesPerCluster ≤ v.clusterCount * v.bytesPerCluster :=
    Nat.mul_le_mul_right _ (by have := hr.2; have := hr.1; omega)
  have himage := g.image
  rw [Nat.add_mul] at hle
  rw [heapAt]
  omega

theorem not_outside : ¬(v.dataLen < v.fatOff c + 4 ∨ v.fatEnd < v.fatOff c + 4) := by
  have hfat := g.fatOff_le hr
  have hheap := g.fatEnd_le (c := c)
  have himage := g.heapAt_le hr
  omega

theorem clusterOffset_eq : v.clusterOffset c = some (v.heapAt c) := by
  have hoff : (v.clusterHeapOff + (c - 2) * v.secsPerCluster) * v.bytesPerSector = v.heapAt c := by
    rw [add_mul, mul_assoc, ← g.cluster, heapAt]
  have hout : ¬(c < 2 ∨ v.maxClusterExclusive ≤ c) := by
    rw [g.max_eq]
    have := hr.1
    have := hr.2
    omega
  simp only [clusterOffset, if_neg hout, hoff, if_pos (g.heapAt_le hr)]

theorem fatEntry_eq : v.fatEntry c = v.data.load (v.fatOff c) 4 := by
  rw [fatEntry, if_neg (g.not_outside hr)]

end

/-- Clusters do not overlap. -/
theorem cluster_inj (hr : v.InRange c) (hr' : v.InRange c') (hx : v.InCluster c x) (hx' : v.InCluster c' x) : c = c' := by
  have hdiv {k : Nat} (hk : v.InCluster k x) : (x - v.clusterHeapOff * v.bytesPerSector) / v.bytesPerCluster = k - 2 := by
    obtain ⟨hlo, hhi⟩ := hk
    rw [heapAt] at hlo hhi
    refine Nat.div_eq_of_lt_le (by omega) ?_
    rw [add_mul]
    omega
  have heq := (hdiv hx).symm.trans (hdiv hx')
  have := hr.1
  have := hr'.1
  omega

theorem fatEntry_inj (hx : v.InFatEntry c x) (hx' : v.InFatEntry c' x) : c = c' := by
  simp only [InFatEntry, fatOff] at hx hx'
  omega

theorem not_inCluster (g : v.Geometry) (hr : v.InRange c) (hx : v.InFatEntry c x) : ¬v.InCluster c' x := by
  intro hin
  have hfat := g.fatOff_le hr
  have hheap := g.fatEnd_le (c := c')
  have := hx.2
  have := hin.1
  omega

end Geometry

/-! ### The same shape -/

namespace Shape

theorem refl (v : ExfatVol) : Shape v v := ⟨v.data, rfl⟩

section
variable (h : Shape v v')
include h

theorem trans (h' : Shape v' v'') : Shape v v'' := by
  obtain ⟨_, rfl⟩ := h
  obtain ⟨d, rfl⟩ := h'
  exact ⟨d, rfl⟩

theorem geometry (g : v.Geometry) : v'.Geometry := by
  obtain ⟨_, rfl⟩ := h
  exact { g with }

theorem inRange : v'.InRange c ↔ v.InRange c := by
  obtain ⟨_, rfl⟩ := h
  rfl

theorem inCluster : v'.InCluster c x ↔ v.InCluster c x := by
  obtain ⟨_, rfl⟩ := h
  rfl

theorem inFatEntry : v'.InFatEntry c x ↔ v.InFatEntry c x := by
  obtain ⟨_, rfl⟩ := h
  rfl

end

theorem setFatEntry (v : ExfatVol) (c d : Nat) : Shape v (v.setFatEntry c d) := by
  rw [ExfatVol.setFatEntry]
  split_ifs
  · exact refl v
  · exact ⟨_, rfl⟩

theorem setBitmapClusterAllocated (v : ExfatVol) (c : Nat) (b : Bool) : Shape v (v.setBitmapClusterAllocated c b) := by
  rw [ExfatVol.setBitmapClusterAllocated]
  cases v.bitmapByte c with
  | none => exact refl v
  | some x => exact ⟨_, rfl⟩

theorem zeroCluster (v : ExfatVol) (c : Nat) : Shape v (v.zeroCluster c) := by
  rw [ExfatVol.zeroCluster]
  cases v.clusterOffset c with
  | none => exact refl v
  | some off => exact ⟨_, rfl⟩

theorem fatEntry_eq (h : Shape v v') (hs : Mem.Same v.data v'.data (v.fatOff c) 4) : v'.fatEntry c = v.fatEntry c := by
  obtain ⟨d, rfl⟩ := h
  change (if _ then _ else d.load (v.fatOff c) 4) = _
  rw [hs.load_eq]
  rfl

end Shape

section
variable (g : v.Geometry) (hr : v.InRange c)
include g hr

theorem setFatEntry_data : (v.setFatEntry c d).data = v.data.store (v.fatOff c) 4 d := by
  rw [setFatEntry, if_neg (g.not_outside hr)]

theorem fatEntry_setFatEntry (hd : d < 2 ^ 32) : (v.setFatEntry c d).fatEntry c = d := by
  have hs := Shape.setFatEntry v c d
  have hoff : (v.setFatEntry c d).fatOff c = v.fatOff c := by
    obtain ⟨_, h⟩ := hs
    rw [h]
    rfl
  rw [(hs.geometry g).fatEntry_eq (hs.inRange.mpr hr), setFatEntry_data g hr, hoff]
  exact Mem.load_store_of_lt _ _ hd

theorem fatEntry_setFatEntry_ne (hne : c' ≠ c) : (v.setFatEntry c d).fatEntry c' = v.fatEntry c' := by
  refine (Shape.setFatEntry v c d).fatEntry_eq ?_
  rw [setFatEntry_data g hr]
  refine (Mem.store_except _ _ _ _).same fun x hlo hhi hin => hne ?_
  exact Geometry.fatEntry_inj (v := v) ⟨hlo, hhi⟩ hin

end

theorem Geometry.fatEntry_of_heap (g : v.Geometry) (hs : Shape v v') {w : Nat → Nat → Prop}
    (hd : Mem.BitsExcept v.data v'.data w) (hw : ∀ x i, w x i → v.fatEnd ≤ x) (hr : v.InRange c) :
    v'.fatEntry c = v.fatEntry c := by
  refine hs.fatEntry_eq (hd.same fun x i _ hhi hin => ?_)
  have hle := hw x i hin
  have := g.fatOff_le hr
  omega

/-! ### Chains -/

namespace Linked

section
variable (h : v.Linked first l)
include h

theorem inRange : ∀ c ∈ l, v.InRange c := by
  induction h with
  | last hr _ =>
    rintro c hc
    rw [mem_singleton.mp hc]
    exact hr
  | link hr _ ih =>
    intro c hc
    rcases mem_cons.mp hc with rfl | hc
    · exact hr
    · exact ih c hc

theorem ne_nil : l ≠ [] := by
  cases h <;> exact cons_ne_nil _ _

theorem first_inRange : v.InRange first := by
  cases h with
  | last hr _ => exact hr
  | link hr _ => exact hr

theorem used : ∀ c ∈ l, v.fatEntry c ≠ FAT_FREE := by
  induction h with
  | last _ hend =>
    intro c hc hfree
    rw [mem_singleton.mp hc] at hfree
    rw [hfree] at hend
    exact absurd hend (by decide)
  | link _ h ih =>
    intro c hc hfree
    rcases mem_cons.mp hc with rfl | hc
    · have hlo := h.first_inRange.1
      rw [hfree] at hlo
      exact absurd hlo (by decide)
    · exact ih c hc hfree

end

/-- A cluster starts one chain. -/
theorem det (g : v.Geometry) (h : v.Linked first l) (h' : v.Linked first l') : l = l' := by
  induction h generalizing l' with
  | last _ hend =>
    cases h' with
    | last => rfl
    | link _ h' => exact absurd (g.lt_bad h'.first_inRange) (not_lt.mpr hend)
  | link _ h ih =>
    cases h' with
    | last _ hend => exact absurd (g.lt_bad h.first_inRange) (not_lt.mpr hend)
    | link _ h' => rw [ih h']

theorem suffix (h : v.Linked first l) : ∀ c ∈ l, ∃ l', v.Linked c l' ∧ l'.length ≤ l.length := by
  induction h with
  | last hr hend =>
    intro c hc
    rw [mem_singleton.mp hc]
    exact ⟨_, .last hr hend, le_refl _⟩
  | link hr h ih =>
    intro c hc
    rcases mem_cons.mp hc with rfl | hc
    · exact ⟨_, .link hr h, le_refl _⟩
    · obtain ⟨l', hl', hlen⟩ := ih c hc
      exact ⟨l', hl', hlen.trans (Nat.le_succ _)⟩

section
variable (g : v.Geometry) (h : v.Linked first l)
include g h

theorem nodup : l.Nodup := by
  induction h with
  | last => exact nodup_singleton _
  | link hr h ih =>
    refine nodup_cons.mpr ⟨fun hmem => ?_, ih⟩
    obtain ⟨l', hl', hlen⟩ := h.suffix _ hmem
    rw [← (Linked.link hr h).det g hl', length_cons] at hlen
    omega

theorem length_le : l.length ≤ v.clusterCount := by
  have hsub : l ⊆ List.range' 2 v.clusterCount := by
    intro c hc
    obtain ⟨hlo, hhi⟩ := h.inRange c hc
    exact mem_range'_1.mpr ⟨hlo, by omega⟩
  have hle := (subperm_of_subset (h.nodup g) hsub).length_le
  rwa [length_range'] at hle

theorem chainLoop_eq (hn : l.length ≤ n) : v.chainLoop n first = l := by
  have hin {c : Nat} (hr : v.InRange c) : 2 ≤ c ∧ c < FAT_BAD ∧ c < v.maxClusterExclusive :=
    ⟨hr.1, g.lt_bad hr, g.max_eq ▸ hr.2⟩
  induction h generalizing n with
  | last hr hend =>
    obtain ⟨n, rfl⟩ := Nat.exists_eq_succ_of_ne_zero (ne_of_gt hn)
    rw [chainLoop, if_pos (hin hr)]
    exact if_pos (.inr hend)
  | @link c l hr h ih =>
    obtain ⟨n, rfl⟩ := Nat.exists_eq_succ_of_ne_zero (ne_of_gt (lt_of_lt_of_le (Nat.succ_pos _) hn))
    have hnext : ¬(v.fatEntry c = FAT_FREE ∨ FAT_BAD ≤ v.fatEntry c) := by
      rintro (hfree | hend)
      · have hlo := h.first_inRange.1
        rw [hfree] at hlo
        exact absurd hlo (by decide)
      · exact absurd (g.lt_bad h.first_inRange) (not_lt.mpr hend)
    rw [chainLoop, if_pos (hin hr)]
    simp only [if_neg hnext]
    rw [ih (Nat.le_of_succ_le_succ hn)]

/-- The walk of the code finds the chain. -/
theorem clusterChain_eq : v.clusterChain first = l :=
  h.chainLoop_eq g ((h.length_le g).trans (Nat.le_succ _))

end

theorem congr (h : v.Linked first l) (hs : Shape v v') (heq : ∀ c ∈ l, v'.fatEntry c = v.fatEntry c) :
    v'.Linked first l := by
  induction h with
  | last hr hend =>
    refine .last (hs.inRange.mpr hr) ?_
    rw [heq _ mem_cons_self]
    exact hend
  | link hr h ih =>
    refine .link (hs.inRange.mpr hr) ?_
    rw [heq _ mem_cons_self]
    exact ih fun c hc => heq c (mem_cons_of_mem _ hc)

theorem append (h : v.Linked first l) (hs : Shape v v') (heq : ∀ c ∈ l.dropLast, v'.fatEntry c = v.fatEntry c)
    (hlast : ∀ c, l.getLast? = some c → v'.Linked (v'.fatEntry c) l') : v'.Linked first (l ++ l') := by
  induction h with
  | last hr _ => exact .link (hs.inRange.mpr hr) (hlast _ rfl)
  | link hr h ih =>
    refine .link (hs.inRange.mpr hr) ?_
    rw [dropLast_cons_of_ne_nil h.ne_nil] at heq
    rw [heq _ mem_cons_self]
    refine ih (fun c hc => heq c (mem_cons_of_mem _ hc)) fun c hc => hlast c ?_
    rw [getLast?_cons, hc]
    rfl

variable (g : v.Geometry) (h : v.Linked first l)
include g h

theorem readChain_eq : v.readChain first = l.flatMap fun c => v.data.read (v.heapAt c) v.bytesPerCluster := by
  rw [readChain, h.clusterChain_eq g]
  refine flatMap_congr fun c hc => ?_
  rw [clusterBytes, g.clusterOffset_eq (h.inRange c hc)]
  rfl

theorem length_readChain : (v.readChain first).length = l.length * v.bytesPerCluster := by
  rw [h.readChain_eq g, length_flatMap]
  simp only [Mem.length_read, map_const', sum_replicate, smul_eq_mul]

theorem dirEntryAbsOff_eq (hoff : off < l.length * v.bytesPerCluster) :
    ∃ c ∈ l, v.dirEntryAbsOff first off = some (v.heapAt c + off % v.bytesPerCluster) := by
  have hdiv : off / v.bytesPerCluster < l.length := Nat.div_lt_of_lt_mul (by rwa [mul_comm])
  refine ⟨l[off / v.bytesPerCluster], getElem_mem hdiv, ?_⟩
  rw [dirEntryAbsOff, h.clusterChain_eq g, getElem?_eq_getElem hdiv, bind_some,
    g.clusterOffset_eq (h.inRange _ (getElem_mem hdiv)), map_some]

end Linked

theorem Shape.dirEntryAbsOff_eq (hs : Shape v v') (hchain : v'.clusterChain first = v.clusterChain first) :
    v'.dirEntryAbsOff first off = v.dirEntryAbsOff first off := by
  rw [dirEntryAbsOff, hchain]
  obtain ⟨_, rfl⟩ := hs
  rfl

theorem Shape.linkClusters (v : ExfatVol) (l : List Nat) : Shape v (v.linkClusters l) := by
  induction l generalizing v with
  | nil => exact .refl v
  | cons c l ih =>
    cases l with
    | nil => exact .setFatEntry v c FAT_EOC
    | cons d l => exact (Shape.setFatEntry v c d).trans (ih (v.setFatEntry c d))

variable (g : v.Geometry) (hr : ∀ c ∈ l, v.InRange c)
include g hr

theorem fatEntry_linkClusters_ne (hc : c ∉ l) : (v.linkClusters l).fatEntry c = v.fatEntry c := by
  induction l generalizing v with
  | nil => rfl
  | cons a l ih =>
    have ha := hr a mem_cons_self
    have hne : c ≠ a := fun h => hc (h ▸ mem_cons_self)
    cases l with
    | nil => exact fatEntry_setFatEntry_ne g ha hne
    | cons b l =>
      have hs := Shape.setFatEntry v a b
      rw [linkClusters, ih (hs.geometry g) (fun k hk => hs.inRange.mpr (hr k (mem_cons_of_mem _ hk)))
        fun hmem => hc (mem_cons_of_mem _ hmem)]
      exact fatEntry_setFatEntry_ne g ha hne

/-- Clusters that are linked form a chain. -/
theorem linked_linkClusters (hnodup : l.Nodup) (hne : l ≠ []) : (v.linkClusters l).Linked (l.headD 0) l := by
  induction l generalizing v with
  | nil => exact absurd rfl hne
  | cons a l ih =>
    have ha := hr a mem_cons_self
    cases l with
    | nil =>
      refine .last ((Shape.setFatEntry v a FAT_EOC).inRange.mpr ha) ?_
      have hentry : (v.setFatEntry a FAT_EOC).fatEntry a = FAT_EOC := fatEntry_setFatEntry g ha (by decide)
      rw [linkClusters, headD_cons, hentry]
      decide
    | cons b l =>
      have hs := Shape.setFatEntry v a b
      have hr' : ∀ k ∈ b :: l, (v.setFatEntry a b).InRange k :=
        fun k hk => hs.inRange.mpr (hr k (mem_cons_of_mem _ hk))
      have hrest := ih (hs.geometry g) hr' (nodup_cons.mp hnodup).2 (cons_ne_nil b l)
      have hb : b < 2 ^ 32 := lt_trans (g.lt_bad (hr b (mem_cons_of_mem _ mem_cons_self))) (by decide)
      have hentry : ((v.setFatEntry a b).linkClusters (b :: l)).fatEntry a = b := by
        rw [fatEntry_linkClusters_ne (hs.geometry g) hr' (nodup_cons.mp hnodup).1, fatEntry_setFatEntry g ha hb]
      refine .link ((hs.trans (.linkClusters _ _)).inRange.mpr ha) ?_
      rw [linkClusters, headD_cons, hentry]
      exact hrest

end Moxide.Exfat.ExfatVol

/-! How many directory entries a name takes, and where entry sets lie. Folding and decoding keep the number of UTF-16
    units. -/

namespace Moxide.Exfat
open Lib List
open Lib.LittleEndian (toBytes ofBytes length_toBytes)

def entryCount (n : Nat) : Nat := 2 + (n + FILE_NAME_CHARS_PER_DENTRY - 1) / FILE_NAME_CHARS_PER_DENTRY

variable {v : ExfatVol} {name : List Char} {data : List UInt8} {i j n need start run : Nat}

/-! ### Units -/

theorem toNat_ofNat {n : Nat} (h : n < 0xD800 ∨ 0xDFFF < n ∧ n < 0x110000) : (Char.ofNat n).toNat = n := by
  have hvalid : n.isValidChar := h
  rw [Char.ofNat, dif_pos hvalid]
  rfl

theorem length_encodeChar_of_lt {c : Char} (h : c.toNat < 0x10000) : (encodeChar c).length = 1 := by
  rw [encodeChar, if_pos h]
  rfl

theorem length_encodeChar_of_ge {c : Char} (h : 0x10000 ≤ c.toNat) : (encodeChar c).length = 2 := by
  rw [encodeChar, if_neg (not_lt.mpr h)]
  rfl

theorem length_encodeUtf16_cons (c : Char) (name : List Char) :
    (encodeUtf16 (c :: name)).length = (encodeChar c).length + (encodeUtf16 name).length := by
  rw [encodeUtf16, flatMap_cons, length_append]
  rfl

theorem length_encodeChar_unit {u : UInt16} (h : u < 0xD800 ∨ 0xDFFF < u) :
    (encodeChar (Char.ofNat u.toNat)).length = 1 := by
  have hlt := u.toNat_lt
  have hout : u.toNat < 0xD800 ∨ 0xDFFF < u.toNat := h
  refine length_encodeChar_of_lt ?_
  rw [toNat_ofNat (hout.imp id fun hgt => ⟨hgt, by omega⟩)]
  exact hlt

theorem length_encode_decode (units : List UInt16) : (encodeUtf16 (decodeUtf16 units)).length = units.length := by
  fun_induction decodeUtf16 units with
  | case1 => rfl
  | case2 u h => rw [length_encodeUtf16_cons, length_encodeChar_unit h]; rfl
  | case3 u h => rfl
  | case4 u w rest h ih =>
    rw [length_encodeUtf16_cons, length_encodeChar_unit h, ih, add_comm]
    rfl
  | case5 u w rest h hpair ih =>
    obtain ⟨hu, hlo, hhi⟩ := hpair
    have hu' : u.toNat < 0xDC00 := hu
    have hhi' : w.toNat ≤ 0xDFFF := hhi
    have hval : (Char.ofNat (0x10000 + (u.toNat - 0xD800) * 0x400 + (w.toNat - 0xDC00))).toNat =
        0x10000 + (u.toNat - 0xD800) * 0x400 + (w.toNat - 0xDC00) := toNat_ofNat (.inr (by omega))
    rw [length_encodeUtf16_cons, length_encodeChar_of_ge (by omega), ih, length_cons, length_cons]
    omega
  | case6 u w rest h hpair ih =>
    rw [length_encodeUtf16_cons, ih, add_comm]
    rfl

theorem length_eq_of_namesEqual {lhs rhs : List Char} (h : v.namesEqual lhs rhs) :
    (encodeUtf16 lhs).length = (encodeUtf16 rhs).length := by
  have heq := congrArg List.length (beq_iff_eq.mp h)
  rwa [ExfatVol.foldedNameUnits, ExfatVol.foldedNameUnits, length_map, length_map] at heq

theorem length_utf16leUnits (data : List UInt8) : (utf16leUnits data).length = data.length / 2 := by
  fun_induction utf16leUnits data with
  | case1 lo hi rest ih =>
    rw [length_cons, ih, length_cons, length_cons]
    omega
  | case2 data h =>
    rcases data with _ | ⟨lo, _ | ⟨hi, rest⟩⟩
    · rfl
    · rw [length_singleton]
      rfl
    · exact absurd rfl (h lo hi rest)

/-! ### Entry sets of a directory -/

/-- What the secondary entries before `i` can have given, for a file entry at `start`: at most as many names as there are
    entries, and a name length only if one of them is a stream extension. -/
structure Read (data : List UInt8) (start i : Nat) (s : Secondaries) : Prop where
  inside : i ≤ data.length
  names : ∃ k, s.nameData.length = k * 30 ∧ start + (1 + k) * 32 ≤ i ∧ (s.nameLen ≠ 0 → start + (2 + k) * 32 ≤ i)

variable {s : Secondaries} {units : List UInt16}

section
variable (h : Read data start i s)
include h

theorem Read.step (hi : ¬data.length < i + DENTRY_SIZE) : Read data start (i + DENTRY_SIZE) (s.read data i) := by
  obtain ⟨k, hk, hlo, hstream⟩ := h.names
  rw [DENTRY_SIZE] at *
  refine ⟨by omega, ?_⟩
  rw [Secondaries.read]
  split_ifs
  · exact ⟨k, hk, by omega, fun _ => by omega⟩
  · refine ⟨k + 1, ?_, by omega, fun hne => ?_⟩
    · rw [length_append, hk, length_take, length_drop]
      omega
    · have := hstream hne
      omega
  · exact ⟨k, hk, by omega, fun hne => by have := hstream hne; omega⟩

theorem Read.loop (n : Nat) : Read data start (readSecondaries data n i s).1 (readSecondaries data n i s).2 := by
  induction n generalizing i s with
  | zero => exact h
  | succ n ih =>
    rw [readSecondaries]
    split_ifs with hi
    · exact h
    · exact ih (h.step hi)

theorem Read.entryCount_le (hne : parseUtf16leName s.nameData s.nameLen ≠ []) :
    start + entryCount (encodeUtf16 (parseUtf16leName s.nameData s.nameLen)).length * 32 ≤ data.length := by
  obtain ⟨k, hk, _, hstream⟩ := h.names
  have hlen : (encodeUtf16 (parseUtf16leName s.nameData s.nameLen)).length = min s.nameLen (k * 15) := by
    rw [parseUtf16leName, length_encode_decode, length_take, length_utf16leUnits, hk]
    omega
  have hnameLen : s.nameLen ≠ 0 := by
    intro h0
    rw [h0] at hne
    exact hne rfl
  have hend := (hstream hnameLen).trans h.inside
  rw [hlen, entryCount, FILE_NAME_CHARS_PER_DENTRY]
  omega

end

theorem mem_parseLoop {p : Nat} {e : DirEntry} (he : e ∈ parseLoop data p n i) :
    e.primaryOff + entryCount (encodeUtf16 e.name).length * 32 ≤ data.length := by
  induction n generalizing i with
  | zero => cases he
  | succ n ih =>
    rw [parseLoop] at he
    split_ifs at he with hend heod hfile
    · cases he
    · cases he
    · have hread : Read data i (i + DENTRY_SIZE) ⟨0, 0, 0, []⟩ :=
        ⟨not_lt.mp hend, 0, rfl, le_refl _, fun h => absurd rfl h⟩
      have hloop := hread.loop (byteAt data (i + 1)).toNat
      dsimp only at he
      split_ifs at he with hname
      · exact ih he
      · rcases mem_cons.mp he with rfl | he
        · exact hloop.entryCount_le fun hnil => hname (List.isEmpty_iff.mpr hnil)
        · exact ih he
    · exact ih he

theorem entryCount_le_of_find {p : Nat} {e : DirEntry} (he : v.findEntryByName (parseDirEntries data p) name = some e) :
    e.primaryOff + entryCount (encodeUtf16 name).length * 32 ≤ data.length := by
  have hle := mem_parseLoop (mem_of_find?_eq_some he)
  have heq : v.namesEqual e.name name := by
    have := find?_some he
    exact this
  rwa [length_eq_of_namesEqual heq] at hle

theorem freeRunLoop_le (hrun : run = 0 ∨ start + run = i) (h : freeRunLoop data need n i start run = some j) :
    j + need ≤ data.length := by
  induction n generalizing i start run with
  | zero => cases h
  | succ n ih =>
    rw [freeRunLoop] at h
    by_cases hend : data.length < i + DENTRY_SIZE
    · rw [if_pos hend] at h
      cases h
    -- the run that ends with this entry
    have hrun' : (if run = 0 then i else start) + (run + DENTRY_SIZE) = i + DENTRY_SIZE := by
      split_ifs with h0
      · rw [h0, zero_add]
      · rw [← add_assoc, hrun.resolve_left h0]
    dsimp only at h
    generalize (if run = 0 then i else start) = start' at h hrun'
    split_ifs at h with hfree hlen heod hrem
    · cases h
      omega
    · cases h
      omega
    · exact ih (.inr hrun') h
    · exact ih (.inl rfl) h

/-- A free run lies in the directory. -/
theorem findFreeDentryRun_le (h : findFreeDentryRun data n = some j) : j + n * 32 ≤ data.length := by
  rw [findFreeDentryRun] at h
  split_ifs at h with h0
  exact freeRunLoop_le (.inl rfl) h

theorem length_searchable (data : List UInt8) (old : DirEntry) : (ExfatVol.searchable data old).length = data.length := by
  rw [ExfatVol.searchable]
  induction List.range (1 + old.secondaryCount) generalizing data with
  | nil => rfl
  | cons k ks ih => rw [foldl_cons, ih, length_modify]

theorem length_nameDentry (h : units.length ≤ 15) : (ExfatVol.nameDentry units).length = 32 := by
  have hbytes : (units.flatMap fun u => toBytes 2 u.toNat).length = 2 * units.length := by
    rw [length_flatMap]
    simp only [length_toBytes, map_const', sum_replicate, smul_eq_mul]
    omega
  rw [ExfatVol.nameDentry, length_append, length_append, length_replicate, hbytes]
  change 2 + 2 * units.length + (30 - 2 * units.length) = 32
  omega

variable (h : utf16NameUnits name = .ok units)
include h

theorem length_utf16NameUnits : units = encodeUtf16 name ∧ units.length ≤ MAX_FILE_NAME_UTF16_UNITS := by
  rw [utf16NameUnits] at h
  split_ifs at h with hdots hchars hlen
  cases h
  rw [Bool.or_eq_true, decide_eq_true_iff, not_or, not_lt] at hlen
  exact ⟨rfl, hlen.2⟩

theorem buildDentries_ok (first valid len attrs : Nat) :
    ∃ dentries, v.buildDentries name first valid len attrs = .ok dentries ∧
      dentries.length = entryCount (encodeUtf16 name).length * 32 := by
  obtain ⟨rfl, hmax⟩ := length_utf16NameUnits h
  rw [MAX_FILE_NAME_UTF16_UNITS] at hmax
  have hcount : ¬255 < 1 + ((encodeUtf16 name).length + FILE_NAME_CHARS_PER_DENTRY - 1) / FILE_NAME_CHARS_PER_DENTRY := by
    rw [FILE_NAME_CHARS_PER_DENTRY]
    omega
  have hnames (m : Nat) : ((List.range m).flatMap fun k => ExfatVol.nameDentry (((encodeUtf16 name).drop
      (k * FILE_NAME_CHARS_PER_DENTRY)).take FILE_NAME_CHARS_PER_DENTRY)).length = m * 32 := by
    rw [length_flatMap]
    have heach : ∀ k ∈ List.range m, (ExfatVol.nameDentry (((encodeUtf16 name).drop
        (k * FILE_NAME_CHARS_PER_DENTRY)).take FILE_NAME_CHARS_PER_DENTRY)).length = 32 :=
      fun k _ => length_nameDentry (length_take_le _ _)
    rw [map_congr_left heach, map_const', length_range, sum_replicate, smul_eq_mul]
  rw [ExfatVol.buildDentries, h]
  dsimp only
  rw [if_neg hcount]
  refine ⟨_, rfl, ?_⟩
  rw [length_append, length_append, hnames, entryCount, ExfatVol.fileDentry, ExfatVol.streamDentry]
  simp only [length_append, length_toBytes, length_cons, length_nil, length_replicate]
  omega

end Moxide.Exfat
