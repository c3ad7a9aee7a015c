import Moxide.Theorems.Exfat.Allocate

/-! Calls that fail leave no trace. An update can fail before it has changed anything, or when it finds no free cluster, and
    then gives back what it took. -/

namespace Moxide.Exfat.ExfatVol
open Lib List Option

/-- The FAT, and the clusters and bytes of every chain: bitmap, up-case table, directories and files, are the same. -/
structure SameMetadata (v v' : ExfatVol) : Prop where
  shape : Shape v v'
  fat : ∀ x, v.fatOffset * v.bytesPerSector ≤ x → x < v.fatEnd → v'.data x = v.data x
  chains : ∀ o first, v.Owns o first →
    v'.clusterChain first = v.clusterChain first ∧ v'.readChain first = v.readChain first

variable {v v' v'' : ExfatVol} {dir first n off need : Nat} {l : List Nat} {name : List Char} {data dentries : List UInt8}
  {e : Int} {parent entry : DirEntry} {old : Option Nat} {path : List Char}

theorem Holds.sameMetadata (hv : v.WellFormed) (h : Holds v [] v') : SameMetadata v v' where
  shape := h.shape
  fat x _ hhi := by
    refine h.restored hv.consistent fun c _ hin => ?_
    have := (hv.geometry.fatEnd_le (c := c)).trans hin.1
    omega
  chains o first ho := by
    obtain ⟨l, hl⟩ := hv.linked o first ho
    have hl' := h.linked hv.consistent hl
    have g' := h.shape.geometry hv.geometry
    refine ⟨by rw [hl'.clusterChain_eq g', hl.clusterChain_eq hv.geometry], ?_⟩
    rw [hl'.readChain_eq g', hl.readChain_eq hv.geometry]
    refine flatMap_congr fun c hc => ?_
    have hsame : Mem.Same v.data v'.data (v.heapAt c) v.bytesPerCluster := by
      intro x hlo hhi
      refine h.restored hv.consistent fun k hf hin => hl.used c hc ?_
      rw [Geometry.cluster_inj (hl.inRange c hc) hf.1 ⟨hlo, hhi⟩ hin]
      exact hf.2
    rw [← hsame.read_eq]
    obtain ⟨_, hs⟩ := h.shape
    rw [hs]
    rfl

def Room (v : ExfatVol) (dir off n : Nat) : Prop := ∃ l, v.Linked dir l ∧ off + n ≤ l.length * v.bytesPerCluster

theorem appendClustersToChain_cases (hv : v.Consistent) (hl : v.Linked first l) (n : Nat) :
    (∃ u l', v.appendClustersToChain first n = (u, .ok ()) ∧ Shape v u ∧ u.Linked first (l ++ l') ∧ l'.length = n) ∨
      ∃ u, v.appendClustersToChain first n = (u, .error (-28)) ∧ Holds v [] u := by
  have hfirst : ¬first < 2 := not_lt.mpr hl.first_inRange.1
  rw [appendClustersToChain, if_neg hfirst]
  by_cases hn : n = 0
  · rw [if_pos hn]
    refine .inl ⟨v, [], rfl, .refl v, ?_, hn.symm⟩
    rw [append_nil]
    exact hl
  rw [if_neg hn, hl.clusterChain_eq hv.geometry]
  obtain ⟨tail, htail⟩ : ∃ tail, l.getLast? = some tail := ⟨_, getLast?_eq_some_getLast hl.ne_nil⟩
  rw [htail]
  rcases (Taken.nil hv).allocClusters hv n with ⟨u, l', hok, ht, hlen⟩ | ⟨u, herr, hu⟩
  · rw [hok]
    refine .inl ⟨_, l', rfl, ?_⟩
    rw [length_nil, zero_add] at hlen
    have hne : l' ≠ [] := by
      rintro rfl
      exact hn hlen.symm
    have gu := ht.holds.shape.geometry hv.geometry
    have hlu := ht.holds.linked hv hl
    have htr := hlu.inRange tail (mem_of_getLast? htail)
    have hs₁ := Shape.setFatEntry u tail (l'.headD 0)
    have hr₁ : ∀ c ∈ l', (u.setFatEntry tail (l'.headD 0)).InRange c := fun c hc =>
      hs₁.inRange.mpr (ht.holds.shape.inRange.mpr (ht.holds.taken c hc).1)
    have hs₂ := hs₁.trans (Shape.linkClusters _ l')
    -- the chain has no free cluster, so none of the new ones
    have hout : ∀ c ∈ l, c ∉ l' := fun c hc hc' => hl.used c hc (ht.holds.taken c hc').2
    have hhead : l'.headD 0 < 2 ^ 32 := by
      obtain ⟨c, rest, rfl⟩ := exists_cons_of_ne_nil hne
      exact lt_trans (hv.geometry.lt_bad (ht.holds.taken c mem_cons_self).1) (by decide)
    refine ⟨ht.holds.shape.trans hs₂, hlu.append hs₂ (fun c hc => ?_) fun c hc => ?_, hlen⟩
    · have hne : c ≠ tail := by
        rintro rfl
        rw [getLast?_eq_some_iff] at htail
        obtain ⟨ys, rfl⟩ := htail
        rw [dropLast_concat] at hc
        exact disjoint_of_nodup_append (hl.nodup hv.geometry) hc (mem_singleton.mpr rfl)
      rw [fatEntry_linkClusters_ne (hs₁.geometry gu) hr₁ (hout c (dropLast_subset _ hc)),
        fatEntry_setFatEntry_ne gu htr hne]
    · obtain rfl := some_inj.mp (htail.symm.trans hc)
      rw [fatEntry_linkClusters_ne (hs₁.geometry gu) hr₁ (hout tail (mem_of_getLast? htail)),
        fatEntry_setFatEntry gu htr hhead]
      exact linked_linkClusters (hs₁.geometry gu) hr₁ ht.nodup hne
  · rw [herr]
    exact .inr ⟨u, rfl, hu⟩

theorem ensureDentryRun_cases (hv : v.Consistent) (hl : v.Linked dir l)
    (hlen : data.length = l.length * v.bytesPerCluster) (n : Nat) :
    (∃ u off b, v.ensureDentryRun dir data n = (u, .ok (off, b)) ∧ Shape v u ∧ u.Room dir off (n * DENTRY_SIZE)) ∨
      ∃ u, v.ensureDentryRun dir data n = (u, .error (-28)) ∧ Holds v [] u := by
  rw [ensureDentryRun]
  cases hrun : findFreeDentryRun data n with
  | some off => exact .inl ⟨v, off, false, rfl, .refl v, l, hl, hlen ▸ findFreeDentryRun_le hrun⟩
  | none =>
    dsimp only
    generalize hadd : (if findEodOffset data + n * DENTRY_SIZE ≤ data.length then 0
      else (findEodOffset data + n * DENTRY_SIZE - data.length + v.bytesPerCluster - 1) / v.bytesPerCluster) = add
    -- the clusters added have the bytes that are missing
    have hroom : findEodOffset data + n * DENTRY_SIZE ≤ (l.length + add) * v.bytesPerCluster := by
      rw [add_mul, ← hadd]
      split_ifs with hfits
      · omega
      have hpos := hv.geometry.pos
      have hdiv := Nat.div_add_mod (findEodOffset data + n * DENTRY_SIZE - data.length + v.bytesPerCluster - 1)
        v.bytesPerCluster
      have hmod := Nat.mod_lt (findEodOffset data + n * DENTRY_SIZE - data.length + v.bytesPerCluster - 1) hpos
      rw [mul_comm] at hdiv
      omega
    rcases appendClustersToChain_cases hv hl add with ⟨u, l', hok, hs, hlu, hlen'⟩ | ⟨u, herr, hu⟩
    · rw [hok]
      refine .inl ⟨u, _, _, rfl, hs, l ++ l', hlu, ?_⟩
      have hbpc : u.bytesPerCluster = v.bytesPerCluster := by
        obtain ⟨_, rfl⟩ := hs
        rfl
      rw [length_append, hlen', hbpc]
      exact hroom
    · rw [herr]
      exact .inr ⟨u, rfl, hu⟩

theorem chooseDentryOffset_cases (name : List Char) (hv : v.Consistent) (hl : v.Linked dir l) :
    (∃ u off b, v.chooseDentryOffset dir (v.readChain dir)
        (v.findEntryByName (parseDirEntries (v.readChain dir) dir) name) (entryCount (encodeUtf16 name).length) =
          (u, .ok (off, b)) ∧ Shape v u ∧ u.Room dir off (entryCount (encodeUtf16 name).length * DENTRY_SIZE)) ∨
      ∃ u, v.chooseDentryOffset dir (v.readChain dir)
        (v.findEntryByName (parseDirEntries (v.readChain dir) dir) name) (entryCount (encodeUtf16 name).length) =
          (u, .error (-28)) ∧ Holds v [] u := by
  have hlen := hl.length_readChain hv.geometry
  cases hold : v.findEntryByName (parseDirEntries (v.readChain dir) dir) name with
  | none => exact ensureDentryRun_cases hv hl hlen _
  | some old =>
    rw [chooseDentryOffset]
    split_ifs with hfits
    · exact .inl ⟨v, _, _, rfl, .refl v, l, hl, hlen ▸ entryCount_le_of_find hold⟩
    · exact ensureDentryRun_cases hv hl ((length_searchable _ old).trans hlen) _

theorem writeDentriesLoop_ok (g : v.Geometry) (h : v.Room dir off dentries.length) (n : Nat) :
    ∃ u, v.writeDentriesLoop dir n off dentries = (u, .ok ()) := by
  induction n generalizing v off dentries with
  | zero => exact ⟨v, rfl⟩
  | succ n ih =>
    rw [writeDentriesLoop]
    cases dentries with
    | nil => exact ⟨v, rfl⟩
    | cons b bs =>
      obtain ⟨l, hl, hfit⟩ := h
      rw [length_cons] at hfit
      obtain ⟨c, hc, habs⟩ := hl.dirEntryAbsOff_eq g (show off < l.length * v.bytesPerCluster by omega)
      have hmod := Nat.mod_lt off g.pos
      have hin := g.heapAt_le (hl.inRange c hc)
      rw [habs, isEmpty_cons, if_neg Bool.false_ne_true]
      dsimp only
      generalize hchunk : min (v.bytesPerCluster - off % v.bytesPerCluster) (b :: bs).length = chunk
      have hle' : chunk ≤ bs.length + 1 := hchunk ▸ Nat.min_le_right _ _
      rw [if_neg (by omega)]
      -- the bytes written are in a cluster, so the FAT and the chain stay
      let d := v.data.write (v.heapAt c + off % v.bytesPerCluster) ((b :: bs).take chunk)
      have hs : Shape v { v with data := d } := ⟨d, rfl⟩
      have hd : Mem.BitsExcept v.data d fun x _ => v.heapAt c ≤ x :=
        (Mem.write_except _ _ _).bits fun x _ hx => (Nat.le_add_right _ _).trans hx.1
      refine ih (v := { v with data := d }) (hs.geometry g) ⟨l, hl.congr hs fun k hk => ?_, ?_⟩
      · exact g.fatEntry_of_heap hs hd (fun x _ hx => g.fatEnd_le.trans hx) (hl.inRange k hk)
      · rw [length_drop]
        change off + chunk + (bs.length + 1 - chunk) ≤ l.length * v.bytesPerCluster
        omega

theorem insertOrReplaceDentries_error (hv : v.Consistent) (hl : v.Linked parent.firstCluster l)
    (hlen : dentries.length = entryCount (encodeUtf16 name).length * 32)
    (h : v.insertOrReplaceDentries parent name dentries old = (v', .error e)) : Holds v [] v' := by
  have hcount : dentries.length / DENTRY_SIZE = entryCount (encodeUtf16 name).length := by
    rw [hlen]
    exact Nat.mul_div_cancel _ (by decide)
  rw [insertOrReplaceDentries] at h
  dsimp only at h
  rw [hcount] at h
  split_ifs at h with hkind
  · cases h
    exact .refl v hv
  rcases chooseDentryOffset_cases name hv hl with ⟨u, off, b, hok, hs, hroom⟩ | ⟨u, herr, hu⟩
  · rw [hok] at h
    have hroom' : u.Room parent.firstCluster off dentries.length := hlen ▸ hroom
    obtain ⟨w, hw⟩ := writeDentriesLoop_ok (hs.geometry hv.geometry) hroom' dentries.length
    dsimp only at h
    rw [writeDentriesToDir, hw] at h
    cases h
  · rw [herr] at h
    cases h
    exact hu

/-! ### Calls -/

theorem resolveLoop_isDir {comps : List (List Char)} (hdir : v.IsDir dir)
    (h : v.resolveLoop dir comps = some entry) (hd : entry.isDir) : v.IsDir entry.firstCluster := by
  induction comps generalizing dir with
  | nil => cases h
  | cons comp rest ih =>
    rw [resolveLoop] at h
    cases hfind : v.findEntryByName (v.entries dir) comp with
    | none =>
      rw [hfind] at h
      cases h
    | some found =>
      rw [hfind] at h
      dsimp only at h
      have hmem : found ∈ v.entries dir := mem_of_find?_eq_some hfind
      split_ifs at h with hlast hkind
      · cases h
        exact .entry hdir hmem hd
      · refine ih (.entry hdir hmem ?_) h
        simpa using hkind

theorem resolveParentDir_isDir (h : v.resolveParentDir path = some entry) : v.IsDir entry.firstCluster := by
  obtain ⟨h, hd⟩ := filter_eq_some_iff.mp h
  rw [resolvePath] at h
  split_ifs at h with hroot
  · cases h
    exact .root
  · exact resolveLoop_isDir .root h hd

theorem WellFormed.linked_of_isDir (hv : v.WellFormed) (h : v.IsDir dir) : ∃ l, v.Linked dir l := by
  cases h with
  | root => exact hv.linked _ _ .root
  | entry hdir he hd => exact hv.linked _ _ (.entry hdir he (.inl hd))

theorem fatEntry_fillClusters {c : Nat} (g : v.Geometry) (contents : List UInt8) (hl : ∀ k ∈ l, v.InRange k)
    (hr : v.InRange c) : (v.fillClusters contents l n).fatEntry c = v.fatEntry c := by
  induction l generalizing v n with
  | nil => rfl
  | cons a l ih =>
    simp only [fillClusters, g.clusterOffset_eq (hl a mem_cons_self)]
    let d := v.data.write (v.heapAt a) ((contents.drop n).take (min v.bytesPerCluster (contents.length - n)))
    have hs : Shape v { v with data := d } := ⟨d, rfl⟩
    have hd : Mem.BitsExcept v.data d fun x _ => v.heapAt a ≤ x := (Mem.write_except _ _ _).bits fun x _ hx => hx.1
    refine (ih (hs.geometry g) (fun k hk => hs.inRange.mpr (hl k (mem_cons_of_mem _ hk))) (hs.inRange.mpr hr)).trans ?_
    exact g.fatEntry_of_heap hs hd (fun x _ hx => g.fatEnd_le.trans hx) hr

theorem Taken.file (hv : v.Consistent) (h : Taken v l v') (contents : List UInt8) :
    Taken v l ((v'.linkClusters l).fillClusters contents l 0) := by
  have hlink := h.holds.linkClusters hv fun c hc => hc
  have hr : ∀ c ∈ l, (v'.linkClusters l).InRange c := fun c hc => hlink.shape.inRange.mpr (h.holds.taken c hc).1
  refine ⟨hlink.fillClusters hv contents fun c hc => hc, h.nodup, fun c hc => ?_⟩
  rw [fatEntry_fillClusters (hlink.shape.geometry hv.geometry) contents hr (hr c hc)]
  have hr' : ∀ c ∈ l, v'.InRange c := fun c hc => h.holds.shape.inRange.mpr (h.holds.taken c hc).1
  exact (linked_linkClusters (h.holds.shape.geometry hv.geometry) hr' h.nodup (ne_nil_of_mem hc)).used c hc

theorem Taken.insert_error (hv : v.WellFormed) (h : Taken v l v') (hdir : v.IsDir parent.firstCluster)
    (hlen : dentries.length = entryCount (encodeUtf16 name).length * 32)
    (hi : v'.insertOrReplaceDentries parent name dentries old = (v'', .error e)) :
    Holds v l v'' ∧ ∀ c ∈ l, v''.fatEntry c = v'.fatEntry c := by
  have hc' := h.holds.consistent hv.consistent h.used
  obtain ⟨lp, hlp⟩ := hv.linked_of_isDir hdir
  have hins := insertOrReplaceDentries_error hc' (h.holds.linked hv.consistent hlp) hlen hi
  refine ⟨h.holds.trans hv.consistent hins, fun c hc => ?_⟩
  exact hins.fatEntry_eq hc' (h.holds.shape.inRange.mpr (h.holds.taken c hc).1) (h.used c hc)

theorem writeFile_error (hv : v.WellFormed) {contents : List UInt8}
    (h : v.writeFile path contents = (v', .error e)) : Holds v [] v' := by
  have hc := hv.consistent
  rw [writeFile] at h
  dsimp only at h
  cases hunits : utf16NameUnits (splitParentName path).2 with
  | error err =>
    rw [hunits] at h
    cases h
    exact .refl v hc
  | ok units =>
  rw [hunits] at h
  cases hparent : v.resolveParentDir (splitParentName path).1 with
  | none =>
    rw [hparent] at h
    cases h
    exact .refl v hc
  | some parent =>
  rw [hparent] at h
  dsimp only at h
  generalize (if contents.isEmpty = true then 0
    else (contents.length + v.bytesPerCluster - 1) / v.bytesPerCluster) = needed at h
  split_ifs at h with hkind
  · cases h
    exact .refl v hc
  rcases (Taken.nil hc).allocClusters hc needed with ⟨u, chain, hok, ht, -⟩ | ⟨u, herr, hu⟩
  · rw [hok] at h
    dsimp only at h
    obtain ⟨dentries, hbuild, hlen⟩ := buildDentries_ok (v := (u.linkClusters chain).fillClusters contents chain 0) hunits
      (chain.headD 0) contents.length contents.length ATTR_ARCHIVE
    rw [buildFileDentries, hbuild] at h
    dsimp only at h
    cases hins : ((u.linkClusters chain).fillClusters contents chain 0).insertOrReplaceDentries parent
        (splitParentName path).2 dentries
        (((v.findEntryByName (v.entries parent.firstCluster) (splitParentName path).2).map (·.firstCluster)).filter
          (2 ≤ ·)) with
    | mk w r =>
      rw [hins] at h
      cases r with
      | ok _ => cases h
      | error err =>
        cases h
        have hheld := ((ht.file hc contents).insert_error hv (resolveParentDir_isDir hparent) hlen hins).1
        refine Holds.freeAllocatedClusters hc ?_
        rw [append_nil]
        exact hheld
  · rw [herr] at h
    cases h
    exact hu

theorem createDir_error (hv : v.WellFormed) (h : v.createDir path = (v', .error e)) : Holds v [] v' := by
  have hc := hv.consistent
  rw [createDir] at h
  dsimp only at h
  cases hunits : utf16NameUnits (splitParentName path).2 with
  | error err =>
    rw [hunits] at h
    cases h
    exact .refl v hc
  | ok units =>
  rw [hunits] at h
  cases hparent : v.resolveParentDir (splitParentName path).1 with
  | none =>
    rw [hparent] at h
    cases h
    exact .refl v hc
  | some parent =>
  rw [hparent] at h
  dsimp only at h
  split_ifs at h with hexists
  · cases h
    exact .refl v hc
  cases ha : v.allocCluster with
  | mk u r =>
  cases r with
  | none =>
    rw [ha] at h
    cases h
    rw [allocCluster_none ha]
    exact .refl v hc
  | some c =>
    rw [ha] at h
    dsimp only at h
    obtain ⟨ht, heoc⟩ := (Taken.nil hc).alloc hc ha
    have hmem : c ∈ [c] := mem_singleton.mpr rfl
    have hrv := (ht.holds.taken c hmem).1
    have hfat := ht.holds.setFatEntry hc hmem FAT_EOC
    -- the FAT entry and the zeros are written a second time
    have hentry : ((u.setFatEntry c FAT_EOC).zeroCluster c).fatEntry c = FAT_EOC := by
      have hr := hfat.shape.inRange.mpr hrv
      rw [Holds.fatEntry_zeroCluster (hfat.shape.geometry hv.geometry) hr hr]
      exact fatEntry_setFatEntry (ht.holds.shape.geometry hv.geometry) (ht.holds.shape.inRange.mpr hrv) (by decide)
    have hnew : Taken v [c] ((u.setFatEntry c FAT_EOC).zeroCluster c) := by
      refine ⟨hfat.zeroCluster hc hmem, nodup_singleton c, fun k hk => ?_⟩
      rw [mem_singleton.mp hk, hentry]
      decide
    obtain ⟨dentries, hbuild, hlen⟩ := buildDentries_ok (v := (u.setFatEntry c FAT_EOC).zeroCluster c) hunits c
      ((u.setFatEntry c FAT_EOC).zeroCluster c).bytesPerCluster ((u.setFatEntry c FAT_EOC).zeroCluster c).bytesPerCluster
      (ATTR_DIRECTORY ||| ATTR_ARCHIVE)
    rw [buildDirDentries, hbuild] at h
    dsimp only at h
    cases hins : ((u.setFatEntry c FAT_EOC).zeroCluster c).insertOrReplaceDentries parent (splitParentName path).2 dentries
        none with
    | mk w r =>
      rw [hins] at h
      cases r with
      | ok _ => cases h
      | error err =>
        cases h
        obtain ⟨hheld, hsame⟩ := hnew.insert_error hv (resolveParentDir_isDir hparent) hlen hins
        have hchain : w.Linked c [c] := by
          refine .last (hheld.shape.inRange.mpr hrv) ?_
          rw [hsame c hmem, hentry]
          decide
        rw [freeChain, if_neg (not_lt.mpr hrv.1), hchain.clusterChain_eq (hheld.shape.geometry hv.geometry)]
        exact Holds.freeAllocatedClusters hc hheld

/-- A failed `write_file` or `create_dir` on a well-formed volume leaves the FAT and all chains as they were. -/
theorem update_error_sameMetadata (hv : v.WellFormed) (path : List Char) (contents : List UInt8) :
    (∀ v' e, v.writeFile path contents = (v', .error e) → SameMetadata v v') ∧
      ∀ v' e, v.createDir path = (v', .error e) → SameMetadata v v' :=
  ⟨fun _ _ h => (writeFile_error hv h).sameMetadata hv, fun _ _ h => (createDir_error hv h).sameMetadata hv⟩

/-- A volume of four clusters of 32 bytes: the bitmap, the root directory, which has only the entry of the bitmap, and two
    free ones. -/
def smallVolume : ExfatVol where
  data x := if 40 ≤ x ∧ x < 48 then 0xFF else if x = 64 then 3 else if x = 96 then 0x81 else if x = 116 then 2
    else if x = 120 then 1 else 0
  dataLen := 192
  bytesPerSector := 32
  secsPerCluster := 1
  bytesPerCluster := 32
  fatOffset := 1
  fatLength := 1
  clusterHeapOff := 2
  clusterCount := 4
  rootCluster := 3
  bitmap := some ⟨2, 1⟩
  upcase := none

theorem smallVolume_isDir {dir : Nat} (h : smallVolume.IsDir dir) : dir = 3 := by
  induction h with
  | root => rfl
  | entry hdir he hd ih =>
    rw [ih] at he
    cases he

theorem smallVolume_owns {o : Owner} {first : Nat} (h : smallVolume.Owns o first) :
    o = .bitmap ∧ first = 2 ∨ o = .root ∧ first = 3 := by
  cases h with
  | bitmap hb =>
    cases hb
    exact .inl ⟨rfl, rfl⟩
  | upcase hu => cases hu
  | root => exact .inr ⟨rfl, rfl⟩
  | entry hdir he hd =>
    rw [smallVolume_isDir hdir] at he
    cases he

theorem smallVolume_wellFormed : smallVolume.WellFormed where
  geometry := ⟨rfl, by decide, by decide, by decide, by decide, by decide⟩
  linked o first h := by
    rcases smallVolume_owns h with ⟨-, rfl⟩ | ⟨-, rfl⟩
    · exact ⟨[2], .last (by decide) (by decide +kernel)⟩
    · exact ⟨[3], .last (by decide) (by decide +kernel)⟩
  disjoint o o' first first' h h' hne := by
    rcases smallVolume_owns h with ⟨rfl, rfl⟩ | ⟨rfl, rfl⟩ <;> rcases smallVolume_owns h' with ⟨rfl, rfl⟩ | ⟨rfl, rfl⟩
    · exact absurd rfl hne
    · exact disjoint_singleton.mpr (by decide)
    · exact disjoint_singleton.mpr (by decide)
    · exact absurd rfl hne
  agree _ c hr := by
    obtain ⟨hlo, hhi⟩ := hr
    have hhi' : c < 6 := hhi
    interval_cases c <;> decide +kernel
  ended dir h := by
    rw [smallVolume_isDir h]
    decide +kernel

/-- A file of one byte: a cluster is taken for it and one for the directory, which needs three. -/
theorem update_error_sameMetadata_small : smallVolume.WellFormed ∧ (smallVolume.writeFile ['a'] [1]).2 = .error (-28) ∧
    SameMetadata smallVolume (smallVolume.writeFile ['a'] [1]).1 := by
  have herr : (smallVolume.writeFile ['a'] [1]).2 = .error (-28) := by decide +kernel
  exact ⟨smallVolume_wellFormed, herr,
    (update_error_sameMetadata smallVolume_wellFormed ['a'] [1]).1 _ (-28) (Prod.ext rfl herr)⟩

end Moxide.Exfat.ExfatVol
