import Moxide.Elf64

/-! The address space after a load. A page holds what the last segment that has a part in it has put there, and zeros
    elsewhere. -/

namespace Moxide.Elf64
open Lib List Option

def Machine.byteAt (m : Machine) (a : Nat) : Option UInt8 :=
  (m.table (a / PAGE * PAGE)).map fun entry => m.mem (entry.1 + a % PAGE)

def Apart (pa pb : Nat) : Prop := pa + PAGE ≤ pb ∨ pb + PAGE ≤ pa

/-- The segment does not wrap and holds its part of the file. -/
structure Sound (bias : Nat) (ph : Elf64Phdr) : Prop where
  wrap : ph.pVaddr + bias + ph.pMemsz ≤ 2 ^ 64
  file : ph.pOffset + ph.pFilesz < 2 ^ 64
  size : ph.pFilesz ≤ ph.pMemsz

/-- The rounded end of the segment does not wrap either. -/
structure Fits (bias : Nat) (ph : Elf64Phdr) : Prop extends Sound bias ph where
  pages : ph.pVaddr + bias + ph.pMemsz + PAGE ≤ 2 ^ 64

def Covers (bias : Nat) (ph : Elf64Phdr) (a : Nat) : Prop :=
  ph.pType = PT_LOAD ∧ ph.pMemsz ≠ 0 ∧ vpageStart ph bias ≤ a ∧ a < vpageEnd ph bias

instance (bias : Nat) (ph : Elf64Phdr) (a : Nat) : Decidable (Covers bias ph a) := inferInstanceAs (Decidable (_ ∧ _))

variable {image : List UInt8} {bias : Nat} {ph : Elf64Phdr} {n va pa a : Nat} {s s' : Loop}

def fileByte (image : List UInt8) (bias : Nat) (ph : Elf64Phdr) (a : Nat) : UInt8 :=
  if ph.pVaddr + bias ≤ a ∧ a < ph.pVaddr + bias + ph.pFilesz then image.getD (ph.pOffset + (a - (ph.pVaddr + bias))) 0
    else 0

variable {table : Nat → Option (Nat × Nat)} {m m' : Machine} {want : Nat → Option UInt8}

theorem usize_of_lt (h : n < 2 ^ 64) : usize n = n := Nat.mod_eq_of_lt h

theorem Fits.vaddr (h : Fits bias ph) : usize (ph.pVaddr + bias) = ph.pVaddr + bias := by
  have hpages := h.pages
  exact usize_of_lt (by simp only [PAGE] at hpages; omega)

theorem Fits.fileEnd (h : Fits bias ph) : usize (ph.pVaddr + bias + ph.pFilesz) = ph.pVaddr + bias + ph.pFilesz := by
  have hpages := h.pages
  have hsize := h.size
  exact usize_of_lt (by simp only [PAGE] at hpages; omega)

/-- The machine maps the bytes of `want`; a page without any is mapped as in `table`. -/
structure Holds (table : Nat → Option (Nat × Nat)) (m : Machine) (want : Nat → Option UInt8) : Prop where
  fresh : m.free.Pairwise Apart
  bytes : ∀ a b, want a = some b → ∃ pa flags, m.table (a / PAGE * PAGE) = some (pa, flags) ∧ (∀ f ∈ m.free, Apart f pa) ∧
    m.mem (pa + a % PAGE) = b
  rest : ∀ a, want a = none → m.table (a / PAGE * PAGE) = table (a / PAGE * PAGE)

theorem copyTo_zeros {mem : Mem} {dst o : Nat} (hzero : ∀ x, dst ≤ x → x < dst + n → mem x = 0) (x : Nat) :
    copyTo mem dst ((image.drop o).take n) x = if dst ≤ x ∧ x < dst + n then image.getD (o + (x - dst)) 0 else mem x := by
  have hlen : ((image.drop o).take n).length = min n (image.length - o) := by rw [length_take, length_drop]
  rw [copyTo, hlen]
  by_cases hin : dst ≤ x ∧ x < dst + min n (image.length - o)
  · rw [if_pos hin, if_pos ⟨hin.1, by omega⟩, getD_eq_getElem?_getD, getElem?_take_of_lt (by omega), getElem?_drop,
      getD_eq_getElem?_getD]
  rw [if_neg hin]
  by_cases hpast : dst ≤ x ∧ x < dst + n
  · rw [if_pos hpast, hzero x hpast.1 hpast.2, getD_eq_getElem?_getD, getElem?_eq_none (by omega)]
    rfl
  · rw [if_neg hpast]

theorem loadPage_mem (hfit : Fits bias ph) {free : List Nat} (hfree : m.free = pa :: free)
    (h : loadPage image ph bias va m = some (pa, m')) {x : Nat} :
    m'.mem x = if pa ≤ x ∧ x < pa + PAGE then fileByte image bias ph (va + (x - pa)) else m.mem x := by
  rw [loadPage, hfree] at h
  simp only [hfit.vaddr, hfit.fileEnd, some.injEq, Prod.mk.injEq, true_and] at h
  rw [← h]
  simp only [mapPageArch, fileByte]
  generalize ph.pVaddr + bias = vaddr
  by_cases hpart : max va vaddr < min (va + PAGE) (vaddr + ph.pFilesz)
  · have hzero : ∀ y, pa + (max va vaddr - va) ≤ y →
        y < pa + (max va vaddr - va) + (min (va + PAGE) (vaddr + ph.pFilesz) - max va vaddr) → zeroPage m.mem pa y = 0 :=
      fun y hlo hhi => if_pos (by omega)
    rw [if_pos hpart, copyTo_zeros hzero, zeroPage]
    by_cases hx : pa ≤ x ∧ x < pa + PAGE
    · split
      · rw [if_pos (by omega)]
        congr 1
        omega
      · rw [if_neg (by omega)]
    · rw [if_neg hx, if_neg hx, if_neg (by omega)]
  · rw [if_neg hpart, zeroPage]
    split
    · rw [if_neg (by omega)]
    · rfl

theorem Holds.loadPage (hfit : Fits bias ph) (hm : Holds table m want)
    (hva : PAGE ∣ va) (h : loadPage image ph bias va m = some (pa, m')) :
    Holds table m' fun a => if va ≤ a ∧ a < va + PAGE then some (fileByte image bias ph a) else want a := by
  obtain ⟨free, hfree⟩ : ∃ free, m.free = pa :: free := by
    rw [Elf64.loadPage] at h
    split at h
    · cases h
    · rename_i pb free hfree
      cases h
      exact ⟨free, hfree⟩
  have hmem := fun x => loadPage_mem hfit hfree h (x := x)
  have htable : m'.table = Function.update m.table va (some (pa, ph.pFlags)) ∧ m'.free = free := by
    rw [Elf64.loadPage, hfree] at h
    cases h
    exact ⟨rfl, rfl⟩
  have hfresh := hm.fresh
  rw [hfree, pairwise_cons] at hfresh
  have hother : ∀ a, ¬(va ≤ a ∧ a < va + PAGE) → a / PAGE * PAGE ≠ va := by
    intro a hpage
    have hmod := Nat.div_add_mod a PAGE
    have hlt := Nat.mod_lt a (show 0 < PAGE by decide)
    rw [mul_comm]
    omega
  refine ⟨htable.2 ▸ hfresh.2, ?_, fun a hnone => ?_⟩
  rotate_left
  · obtain ⟨hpage, hnone⟩ := ite_eq_iff.mp hnone |>.resolve_left fun hin => nomatch hin.2
    rw [htable.1, Function.update_of_ne (hother a hpage)]
    exact hm.rest a hnone
  intro a b hb
  have hmod := Nat.div_add_mod a PAGE
  have hlt := Nat.mod_lt a (show 0 < PAGE by decide)
  rw [htable.1, htable.2]
  by_cases hpage : va ≤ a ∧ a < va + PAGE
  · rw [if_pos hpage] at hb
    have hstart : a / PAGE * PAGE = va := by
      obtain ⟨k, rfl⟩ := hva
      have hk : a / PAGE = k :=
        Nat.div_eq_of_lt_le (by rw [Nat.mul_comm]; exact hpage.1) (by rw [Nat.succ_mul, Nat.mul_comm k]; exact hpage.2)
      rw [hk, Nat.mul_comm]
    refine ⟨pa, ph.pFlags, by rw [hstart, Function.update_self], fun f hf => Or.symm (hfresh.1 f hf), ?_⟩
    rw [hmem, if_pos (by omega), Nat.add_sub_cancel_left]
    rw [Nat.mul_comm] at hmod
    rw [← hstart, hmod]
    exact some.inj hb
  · rw [if_neg hpage] at hb
    obtain ⟨pb, flags, hentry, hapart, hbyte⟩ := hm.bytes a b hb
    refine ⟨pb, flags, by rw [Function.update_of_ne (hother a hpage), hentry],
      fun f hf => hapart f (by rw [hfree]; exact .tail _ hf), ?_⟩
    have hpb := hapart pa (by rw [hfree]; exact .head _)
    rw [Apart] at hpb
    rw [hmem, if_neg (by omega), hbyte]

/-! ### Segments -/

theorem Holds.congr {want' : Nat → Option UInt8} (h : Holds table m want) (heq : ∀ a, want' a = want a) :
    Holds table m want' := by
  rw [funext heq]
  exact h

theorem Holds.loadPages (hfit : Fits bias ph) (n : Nat) (hm : Holds table m want) (hva : PAGE ∣ va) {pages : List Nat}
    (h : loadPages image ph bias n va m = some (pages, m')) :
    Holds table m' fun a => if va ≤ a ∧ a < va + n * PAGE then some (fileByte image bias ph a) else want a := by
  induction n generalizing m want va pages with
  | zero =>
    cases h
    exact hm.congr fun a => if_neg (by omega)
  | succ n ih =>
    rw [Elf64.loadPages, bind_eq_bind, bind_eq_some_iff] at h
    obtain ⟨⟨pa, m₁⟩, hpage, h⟩ := h
    rw [bind_eq_bind, bind_eq_some_iff] at h
    obtain ⟨⟨rest, m₂⟩, hrest, h⟩ := h
    cases h
    refine (ih (hm.loadPage hfit hva hpage) (Nat.dvd_add hva (Nat.dvd_refl PAGE)) hrest).congr fun a => ?_
    rw [Nat.succ_mul]
    by_cases hfirst : va ≤ a ∧ a < va + PAGE
    · rw [if_pos hfirst, if_pos (by omega), ite_self]
    split
    · rw [if_pos (by omega)]
    · rw [if_neg (by omega)]

def overlay (image : List UInt8) (bias : Nat) (want : Nat → Option UInt8) (ph : Elf64Phdr) : Nat → Option UInt8 :=
  fun a => if Covers bias ph a then some (fileByte image bias ph a) else want a

theorem pages_eq (ph : Elf64Phdr) (bias : Nat) (h : vpageStart ph bias ≤ vpageEnd ph bias) :
    vpageStart ph bias + (vpageEnd ph bias - vpageStart ph bias) / PAGE * PAGE = vpageEnd ph bias := by
  have hdvd : PAGE ∣ vpageEnd ph bias - vpageStart ph bias := Nat.dvd_sub (Nat.dvd_mul_left _ _) (Nat.dvd_mul_left _ _)
  rw [Nat.div_mul_cancel hdvd]
  omega

theorem Fits.bounds (h : Fits bias ph) : vpageStart ph bias ≤ ph.pVaddr + bias ∧
    ph.pVaddr + bias + ph.pMemsz ≤ vpageEnd ph bias := by
  have hpages := h.pages
  rw [vpageStart, vpageEnd, h.vaddr, usize_of_lt (by simp only [PAGE] at hpages ⊢; omega)]
  simp only [PAGE]
  omega

theorem vpageEnd_eq_zero (h : Sound bias ph) (hmem : ph.pMemsz ≠ 0) (hend : ¬ph.pVaddr + bias + ph.pMemsz + PAGE ≤ 2 ^ 64) :
    vpageEnd ph bias = 0 := by
  have hwrap := h.wrap
  simp only [PAGE] at hend
  rw [vpageEnd, usize_of_lt (show ph.pVaddr + bias < 2 ^ 64 by omega), usize]
  simp only [PAGE]
  omega

theorem Holds.loadPhdr (hs : Holds table s.machine want)
    (hsound : ph.pType = PT_LOAD → Sound bias ph) (h : loadPhdr image bias s ph = some s') :
    Holds table s'.machine (overlay image bias want ph) ∧ (ph.pType = PT_LOAD → ph.pOffset + ph.pFilesz ≤ image.length) := by
  rw [Elf64.loadPhdr] at h
  by_cases hload : ph.pType = PT_LOAD
  · have hsound := hsound hload
    have hphdr : ph.pType ≠ PT_PHDR := by
      rw [hload]
      decide
    simp only [if_neg hphdr, if_neg (not_not.mpr hload), Option.pure_def, bind_eq_bind] at h
    split_ifs at h with hlong hempty
    · cases h
      refine ⟨hs.congr fun a => if_neg fun hcov => hcov.2.1 hempty, fun _ => ?_⟩
      rw [usize_of_lt hsound.file] at hlong
      omega
    rw [bind_eq_some_iff] at h
    obtain ⟨⟨pages, machine⟩, hpages, h⟩ := h
    cases h
    have hdvd : PAGE ∣ vpageStart ph bias := Nat.dvd_mul_left _ _
    refine ⟨?_, fun _ => ?_⟩
    · by_cases hend : ph.pVaddr + bias + ph.pMemsz + PAGE ≤ 2 ^ 64
      · have hfit : Fits bias ph := ⟨hsound, hend⟩
        have hbounds := hfit.bounds
        refine (hs.loadPages hfit _ hdvd hpages).congr fun a => ?_
        rw [pages_eq ph bias (by omega)]
        exact if_congr ⟨fun hcov => hcov.2.2, fun hin => ⟨hload, hempty, hin⟩⟩ rfl rfl
      · -- the rounded end has wrapped to 0, and the page loop does not run
        have hzero := vpageEnd_eq_zero hsound hempty hend
        rw [hzero, Nat.zero_sub, Nat.zero_div] at hpages
        cases hpages
        refine hs.congr fun a => if_neg fun hcov => ?_
        have hlt := hcov.2.2.2
        omega
    · rw [usize_of_lt hsound.file] at hlong
      omega
  · rw [if_pos hload] at h
    refine ⟨?_, fun hload' => absurd hload' hload⟩
    have hmachine : s'.machine = s.machine := by
      cases h
      split_ifs
      · rfl
      · rfl
    rw [hmachine]
    exact hs.congr fun a => if_neg fun hcov => hload hcov.1

section
variable (phs : List Elf64Phdr)

theorem Holds.foldlM (hs : Holds table s.machine want) (hsound : ∀ ph ∈ phs, ph.pType = PT_LOAD → Sound bias ph)
    (h : phs.foldlM (Elf64.loadPhdr image bias) s = some s') :
    Holds table s'.machine (phs.foldl (overlay image bias) want) ∧
      ∀ ph ∈ phs, ph.pType = PT_LOAD → ph.pOffset + ph.pFilesz ≤ image.length := by
  induction phs generalizing s want with
  | nil =>
    cases h
    exact ⟨hs, fun ph hph => nomatch hph⟩
  | cons ph phs ih =>
    rw [foldlM_cons, bind_eq_bind, bind_eq_some_iff] at h
    obtain ⟨s₁, hone, hrest⟩ := h
    obtain ⟨hs₁, hlen⟩ := hs.loadPhdr (hsound ph (.head _)) hone
    obtain ⟨hs', hlens⟩ := ih hs₁ (fun q hq => hsound q (.tail _ hq)) hrest
    refine ⟨hs', fun q hq => ?_⟩
    rcases mem_cons.mp hq with rfl | hq
    · exact hlen
    · exact hlens q hq

/-- A page holds what the last segment with a part in it has put there. -/
theorem foldl_overlay (image : List UInt8) (bias : Nat) (want : Nat → Option UInt8) (a : Nat) :
    ((∀ q ∈ phs, ¬Covers bias q a) ∧ phs.foldl (overlay image bias) want a = want a) ∨
      ∃ q ∈ phs, Covers bias q a ∧ phs.foldl (overlay image bias) want a = some (fileByte image bias q a) := by
  induction phs generalizing want with
  | nil => exact .inl ⟨fun q hq => (nomatch hq), rfl⟩
  | cons p phs ih =>
    rcases ih (overlay image bias want p) with ⟨hnone, hval⟩ | ⟨q, hq, hcov, hval⟩
    · by_cases hp : Covers bias p a
      · exact .inr ⟨p, .head _, hp, hval.trans (if_pos hp)⟩
      · refine .inl ⟨fun q hq => ?_, hval.trans (if_neg hp)⟩
        rcases mem_cons.mp hq with rfl | hq
        · exact hp
        · exact hnone q hq
    · exact .inr ⟨q, .tail _ hq, hcov, hval⟩

end

theorem load_eq_some {arch : Arch} {rand : Nat} {elf : LoadedElf} (h : load arch image rand m = some (elf, m')) :
    ∃ s, (phdrs image).foldlM (Elf64.loadPhdr image elf.base) ⟨m, [], 0, 0, none⟩ = some s ∧ m' = s.machine := by
  rw [load] at h
  iterate 6 rw [ite_none_left_eq_some] at h
  obtain ⟨-, -, -, -, -, -, h⟩ := h
  rw [bind_eq_bind, bind_eq_some_iff] at h
  obtain ⟨s, hs, h⟩ := h
  cases h
  exact ⟨s, hs, rfl⟩

def InSegment (bias : Nat) (ph : Elf64Phdr) (a : Nat) : Prop :=
  ph.pType = PT_LOAD ∧ ph.pVaddr + bias ≤ a ∧ a < ph.pVaddr + bias + ph.pMemsz

/-- What a later segment does to a byte of this one in its pages: it becomes zero. -/
theorem foldl_overlay_split (image : List UInt8) (pre : List Elf64Phdr) {post : List Elf64Phdr}
    (hsound : ∀ q ∈ post, q.pType = PT_LOAD → Sound bias q)
    (hdisj : ∀ q ∈ post, ¬InSegment bias q a) (hcov : Covers bias ph a) :
    (pre ++ ph :: post).foldl (overlay image bias) (fun _ => none) a =
      some (if ∃ q ∈ post, Covers bias q a then 0 else fileByte image bias ph a) := by
  rw [foldl_append, foldl_cons]
  rcases foldl_overlay post image bias (overlay image bias _ ph) a with ⟨hnone, hval⟩ | ⟨q, hq, hqcov, hval⟩
  · rw [hval, if_neg fun ⟨q, hq, hqcov⟩ => hnone q hq hqcov]
    exact if_pos hcov
  · have hsize := (hsound q hq hqcov.1).size
    rw [hval, if_pos ⟨q, hq, hqcov⟩, fileByte, if_neg]
    rintro ⟨hlo, hhi⟩
    exact hdisj q hq ⟨hqcov.1, hlo, by omega⟩

theorem vpageEnd_le (ph : Elf64Phdr) (bias : Nat) : vpageEnd ph bias ≤ 2 ^ 64 - PAGE := by
  rw [vpageEnd, usize]
  simp only [PAGE]
  omega

theorem pairwise_of_split {R : Elf64Phdr → Elf64Phdr → Prop} {phs : List Elf64Phdr}
    (h : ∀ pre p post, phs = pre ++ p :: post → ∀ q ∈ post, R p q) : phs.Pairwise R := by
  induction phs with
  | nil => exact .nil
  | cons p phs ih =>
    refine pairwise_cons.mpr ⟨h [] p phs rfl, ih fun pre p' post heq => h (p :: pre) p' post ?_⟩
    rw [heq, cons_append]

/-- The bytes of the file that the segment is to hold, and zeros past them. -/
def Mapped (image : List UInt8) (m : Machine) (bias : Nat) (ph : Elf64Phdr) : Prop :=
  ∀ i < ph.pMemsz, m.byteAt (ph.pVaddr + bias + i) = if i < ph.pFilesz then image[ph.pOffset + i]? else some 0

/-- The later segment has no part in a page in which the earlier one has a byte of the file that is not zero. -/
def Spares (image : List UInt8) (bias : Nat) (p q : Elf64Phdr) : Prop :=
  p.pType = PT_LOAD → ∀ i < p.pFilesz, Covers bias q (p.pVaddr + bias + i) → image[p.pOffset + i]? = some 0

/-- What is mapped at an address of a segment that does not end in the last page. -/
theorem Holds.byteAt_segment {pre post : List Elf64Phdr} {i : Nat}
    (hm : Holds table m ((pre ++ ph :: post).foldl (overlay image bias) fun _ => none))
    (hsound : ∀ q ∈ pre ++ ph :: post, q.pType = PT_LOAD → Sound bias q)
    (hdisj : (pre ++ ph :: post).Pairwise fun p q => ∀ a, InSegment bias p a → ¬InSegment bias q a)
    (hload : ph.pType = PT_LOAD) (hend : ph.pVaddr + bias + ph.pMemsz + PAGE ≤ 2 ^ 64) (hi : i < ph.pMemsz) :
    m.byteAt (ph.pVaddr + bias + i) = some (if ∃ q ∈ post, Covers bias q (ph.pVaddr + bias + i) then 0
      else fileByte image bias ph (ph.pVaddr + bias + i)) := by
  have hfit : Fits bias ph := ⟨hsound ph (mem_append_right pre (.head _)) hload, hend⟩
  have hbounds := hfit.bounds
  have hcov : Covers bias ph (ph.pVaddr + bias + i) := ⟨hload, by omega, by omega, by omega⟩
  have hapart : ∀ q ∈ post, ¬InSegment bias q (ph.pVaddr + bias + i) := fun q hq =>
    (pairwise_cons.mp (pairwise_append.mp hdisj).2.1).1 q hq _ ⟨hload, by omega, by omega⟩
  have hval := foldl_overlay_split image pre (fun q hq => hsound q (mem_append_right pre (.tail _ hq))) hapart hcov
  obtain ⟨pa, flags, hentry, -, hmemory⟩ := hm.bytes _ _ hval
  rw [Machine.byteAt, hentry, map_some, hmemory]

/-- No segment covers the last page of the address space. -/
theorem Holds.byteAt_last {phs : List Elf64Phdr}
    (hm : Holds table m (phs.foldl (overlay image bias) fun _ => none)) (hlast : table (2 ^ 64 - PAGE) = none)
    (ha : a / PAGE * PAGE = 2 ^ 64 - PAGE) : m.byteAt a = none := by
  rcases foldl_overlay phs image bias (fun _ => none) a with ⟨-, hnone⟩ | ⟨q, -, hcov, -⟩
  · rw [Machine.byteAt, hm.rest _ hnone, ha, hlast]
    rfl
  · have hle := vpageEnd_le q bias
    have hlt := hcov.2.2.2
    simp only [PAGE] at ha hle
    omega

/-- For segments that are disjoint and do not wrap, every byte of every segment is the byte of the file, or zero past the
    file's part, if and only if no segment ends in the last page of the address space and none has a part in a page in
    which an earlier one has a byte that is not zero. -/
theorem load_maps_segments_iff {arch : Arch} {rand : Nat} {m m' : Machine} {elf : LoadedElf} (hfree : m.free.Pairwise Apart)
    (hlast : m.table (2 ^ 64 - PAGE) = none) (h : load arch image rand m = some (elf, m'))
    (hsound : ∀ ph ∈ phdrs image, ph.pType = PT_LOAD → Sound elf.base ph)
    (hdisj : (phdrs image).Pairwise fun p q => ∀ a, InSegment elf.base p a → ¬InSegment elf.base q a) :
    (∀ ph ∈ phdrs image, ph.pType = PT_LOAD → Mapped image m' elf.base ph) ↔
      (∀ ph ∈ phdrs image, ph.pType = PT_LOAD → ph.pMemsz ≠ 0 → ph.pVaddr + elf.base + ph.pMemsz + PAGE ≤ 2 ^ 64) ∧
        (phdrs image).Pairwise (Spares image elf.base) := by
  obtain ⟨s, hs, rfl⟩ := load_eq_some h
  have hstart : Holds m.table (Loop.mk m [] 0 0 none).machine fun _ => none :=
    ⟨hfree, fun _ _ hnone => (nomatch hnone), fun _ _ => rfl⟩
  obtain ⟨hfinal, hlen⟩ := hstart.foldlM _ hsound hs
  have hfile : ∀ {ph}, ph ∈ phdrs image → ph.pType = PT_LOAD → ∀ i < ph.pFilesz,
      image[ph.pOffset + i]? = some (image.getD (ph.pOffset + i) 0) := by
    intro ph hph hload i hi
    have hend := hlen ph hph hload
    rw [getD_eq_getElem?_getD, getElem?_eq_getElem (by omega)]
    rfl
  have hbyte {pre ph post i} (heq : phdrs image = pre ++ ph :: post) :=
    (heq ▸ hfinal).byteAt_segment (i := i) (heq ▸ hsound) (heq ▸ hdisj)
  constructor
  · intro hmapped
    have hfits : ∀ ph ∈ phdrs image, ph.pType = PT_LOAD → ph.pMemsz ≠ 0 →
      ph.pVaddr + elf.base + ph.pMemsz + PAGE ≤ 2 ^ 64 := by
      intro ph hph hload hmem
      by_contra hend
      have hwrap := (hsound ph hph hload).wrap
      have hsize := (hsound ph hph hload).size
      have hval := hmapped ph hph hload (ph.pMemsz - 1) (by omega)
      -- the last byte is in the last page, which no segment covers
      have hpage : (ph.pVaddr + elf.base + (ph.pMemsz - 1)) / PAGE * PAGE = 2 ^ 64 - PAGE := by
        simp only [PAGE] at hend ⊢
        omega
      rw [hfinal.byteAt_last hlast hpage] at hval
      split_ifs at hval with hi
      rw [hfile hph hload _ hi] at hval
      cases hval
    refine ⟨hfits, pairwise_of_split fun pre p post heq q hq hload i hi hcov => ?_⟩
    have hmem : p ∈ phdrs image := heq ▸ mem_append_right pre (.head _)
    have hsize := (hsound p hmem hload).size
    have hval := hmapped p hmem hload i (by omega)
    rw [hbyte heq hload (hfits p hmem hload (by omega)) (by omega), if_pos ⟨q, hq, hcov⟩, if_pos hi] at hval
    exact hval.symm
  · rintro ⟨hfits, hspares⟩ ph hph hload i hi
    obtain ⟨pre, post, heq⟩ := append_of_mem hph
    rw [hbyte heq hload (hfits ph hph hload (by omega)) hi]
    by_cases hlater : ∃ q ∈ post, Covers elf.base q (ph.pVaddr + elf.base + i)
    · rw [if_pos hlater]
      obtain ⟨q, hq, hcov⟩ := hlater
      split_ifs with hi'
      · rw [heq] at hspares
        exact ((pairwise_cons.mp (pairwise_append.mp hspares).2.1).1 q hq hload i hi' hcov).symm
      · rfl
    · rw [if_neg hlater, fileByte]
      split_ifs with hi'
      · rw [hfile hph hload i (by omega), Nat.add_sub_cancel_left]
      · omega
      · omega
      · rfl

/-! ### Two files -/

def headersOnly (phs : List Elf64Phdr) : List UInt8 :=
  let le := LittleEndian.toBytes
  ELFMAG ++ [ELFCLASS64] ++ le 11 0 ++ le 2 ET_EXEC ++ le 2 EM_X86_64 ++ le 4 1 ++ le 8 0 ++ le 8 64 ++ le 8 0 ++
    le 4 0 ++ le 2 64 ++ le 2 56 ++ le 2 phs.length ++ le 6 0 ++
    phs.flatMap fun ph =>
      le 4 ph.pType ++ le 4 ph.pFlags ++ le 8 ph.pOffset ++ le 8 ph.pVaddr ++ le 8 0 ++ le 8 ph.pFilesz ++
        le 8 ph.pMemsz ++ le 8 PAGE

def machine : Machine := ⟨fun _ => 0, [0x1000, 0x2000], fun _ => none⟩

def twoPages : List UInt8 := headersOnly [⟨PT_LOAD, 4, 0, 0x400000, 1, 1⟩, ⟨PT_LOAD, 4, 0, 0x401000, 1, 1⟩]

theorem twoPages_loads : (load .x86_64 twoPages 0 machine).isSome := by decide +kernel

theorem load_maps_segments_iff_twoPages :
    (load .x86_64 twoPages 0 machine).map (fun r => r.2.byteAt 0x400000) = some (some 0x7f) := by
  obtain ⟨⟨elf, m'⟩, hload⟩ := isSome_iff_exists.mp twoPages_loads
  have hbase : elf.base = 0 := by
    have hmap : (load .x86_64 twoPages 0 machine).map (fun r => r.1.base) = some 0 := by decide +kernel
    rw [hload] at hmap
    exact some.inj hmap
  have hphdrs : phdrs twoPages = [⟨PT_LOAD, 4, 0, 0x400000, 1, 1⟩, ⟨PT_LOAD, 4, 0, 0x401000, 1, 1⟩] := by decide +kernel
  have hstart : vpageStart ⟨PT_LOAD, 4, 0, 0x401000, 1, 1⟩ 0 = 0x401000 := by decide
  have hiff := load_maps_segments_iff (by simp [machine, Apart, PAGE]) rfl hload
  rw [hbase, hphdrs] at hiff
  have hmapped := (hiff
    (by
      rintro ph (_ | ⟨_, _ | ⟨_, hph⟩⟩) -
      · exact ⟨by decide, by decide, by decide⟩
      · exact ⟨by decide, by decide, by decide⟩
      · cases hph)
    (pairwise_pair.mpr (by
      rintro a ⟨-, -, hp⟩ ⟨-, hq, -⟩
      dsimp only at hp hq
      omega))).mpr ⟨by decide, pairwise_pair.mpr fun _ i hi hcov => by
        have hlow := hcov.2.2.1
        dsimp only at hi hlow
        omega⟩ _ (.head _) rfl 0 (by decide)
  have hfile : twoPages[0]? = some 0x7f := by decide +kernel
  rw [hload, map_some, some.injEq]
  exact hmapped.trans hfile

def onePage : List UInt8 := headersOnly [⟨PT_LOAD, 4, 0, 0x400000, 1, 1⟩, ⟨PT_LOAD, 4, 0, 0x400800, 1, 1⟩]

/-- The second segment gets a new frame for the page, and the byte of the first is lost. -/
theorem load_hides_segment : phdrs onePage = [⟨PT_LOAD, 4, 0, 0x400000, 1, 1⟩, ⟨PT_LOAD, 4, 0, 0x400800, 1, 1⟩] ∧
    onePage[0]? = some 0x7f ∧
    (load .x86_64 onePage 0 machine).map (fun r => (r.2.byteAt 0x400000, r.2.byteAt 0x400800)) =
      some (some 0, some 0x7f) := by
  decide +kernel

end Moxide.Elf64
