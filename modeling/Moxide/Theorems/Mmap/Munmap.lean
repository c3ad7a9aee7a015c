import Moxide.Theorems.Mmap.UserRange
import Moxide.Theorems.Paging.AddressSpaces

/-! What `munmap` leaves, on the page tables of `arch/x86_64`. `remove_vma` drops a VMA whole when the range cuts it, and the
    tables read only 48 bits of an address. -/

namespace Moxide.Mmap
open Lib List Option
open Paging (Machine SamePage Trees memory)

variable {lay : Pmm.Layout} {node : Nat} {R : Nat → Prop} {cr3 addr length va : UInt64}

theorem mem_pagesOf_iff {stop : UInt64} (ha : addr.toNat % 4096 = 0) :
    va ∈ pagesOf addr stop ↔ va.toNat % 4096 = 0 ∧ addr ≤ va ∧ va < stop := by
  constructor
  · intro h
    refine ⟨?_, mem_pagesOf h⟩
    obtain ⟨i, -, rfl⟩ := List.mem_map.mp h
    rw [UInt64.toNat_add, UInt64.toNat_ofNat']
    omega
  · rintro ⟨hva, hle, hlt⟩
    rw [UInt64.le_iff_toNat_le] at hle
    rw [UInt64.lt_iff_toNat_lt] at hlt
    have hmax := va.toNat_lt
    refine List.mem_map.mpr ⟨(va.toNat - addr.toNat) / 4096, mem_range.mpr (by omega), UInt64.toNat_inj.mp ?_⟩
    rw [UInt64.toNat_add, UInt64.toNat_ofNat']
    omega

theorem unmapPages_maps (hr : R (cr3.toNat / 4096)) {isPhys : UInt64 → Bool} {pages : List UInt64} {m : Machine}
    (h : Trees lay node m R) (va : UInt64) : (unmapPages (memory lay node) cr3 isPhys m pages).1.virtToPhys cr3 va =
      if ∃ p ∈ pages, SamePage p va then none else m.virtToPhys cr3 va := by
  induction pages generalizing m with
  | nil => simp [unmapPages]
  | cons p rest ih =>
    obtain ⟨hold, htrees, hmaps⟩ := h.unmapPage_maps hr p
    -- a page that is not mapped is left out, which is what unmapping it would do
    have hnext : (unmapPages (memory lay node) cr3 isPhys m (p :: rest)).1 =
        (unmapPages (memory lay node) cr3 isPhys (m.unmapPage cr3 p).2 rest).1 := by
      rw [unmapPages]
      cases hp : m.virtToPhys cr3 p with
      | none =>
        rcases h.unmapPage hr p with ⟨-, hu⟩ | ⟨pa, u, hpa, -⟩
        · simp only [memory, hp, hu]
        · rw [hp] at hpa
          cases hpa
      | some pa => simp only [memory, hp]
    rw [hnext, ih htrees, hmaps cr3 va hr]
    by_cases hsame : SamePage p va
    · simp [hsame]
    · simp [hsame]

theorem freePages_maps {toFree : List UInt64} {m m' : Machine} (h : freePages (memory lay node) m toFree = some m') :
    m'.virtToPhys = m.virtToPhys := by
  induction toFree generalizing m with
  | nil =>
    cases h
    rfl
  | cons pa rest ih =>
    obtain ⟨m₁, hfree, hrest⟩ := bind_eq_some_iff.mp h
    obtain ⟨pmm, -, rfl⟩ := map_eq_some_iff.mp hfree
    exact ih (m := { m with pmm := pmm }) hrest

def InRange (addr length va : UInt64) : Prop := addr.toNat ≤ va.toNat ∧ va.toNat < addr.toNat + roundUp length.toNat

instance : Decidable (InRange addr length va) := inferInstanceAs (Decidable (_ ∧ _))

/-- The VMA lies inside the range, or does not meet it. -/
def Vma.Uncut (addr length : UInt64) (v : Vma) : Prop :=
  (∃ va, v.contains va = true ∧ InRange addr length va) → ∀ va, v.contains va = true → InRange addr length va

theorem contains_iff {v : Vma} : v.contains va ↔ v.start.toNat ≤ va.toNat ∧ va.toNat < v.stop.toNat := by
  simp [Vma.contains, UInt64.le_iff_toNat_le, UInt64.lt_iff_toNat_lt]

/-- An address of the processor: the upper bits repeat bit 47. -/
def Canonical (va : UInt64) : Prop := va.toNat < 2 ^ 47 ∨ 2 ^ 64 - 2 ^ 47 ≤ va.toNat

instance : Decidable (Canonical va) := inferInstanceAs (Decidable (_ ∨ _))

/-- No page outside the range that is mapped has the table entry of a page of the range. -/
def Unaliased (s : State Machine) (addr length : UInt64) : Prop :=
  ∀ p va, InRange addr length p → Canonical va → ¬InRange addr length va → SamePage p va →
    s.mem.virtToPhys s.pcb.userSatp va = none

theorem unaliased_of_canonical (s : State Machine) (halign : addr.toNat % 4096 = 0)
    (h : ∀ p, InRange addr length p → Canonical p) : Unaliased s addr length := by
  intro p va hp hva hout hsame
  have hcan := h p hp
  unfold SamePage at hsame
  unfold Canonical at hcan hva
  unfold InRange roundUp at hp hout
  have hva' := va.toNat_lt
  have hp' := p.toNat_lt
  omega

theorem samePage_pagesOf {stop : UInt64} (halign : addr.toNat % 4096 = 0)
    (hstop : stop.toNat = addr.toNat + roundUp length.toNat) :
    (∃ p ∈ pagesOf addr stop, SamePage p va) ↔ ∃ p, InRange addr length p ∧ SamePage p va := by
  constructor
  · rintro ⟨p, hp, hsame⟩
    obtain ⟨-, hle, hlt⟩ := (mem_pagesOf_iff halign).mp hp
    rw [UInt64.le_iff_toNat_le] at hle
    rw [UInt64.lt_iff_toNat_lt, hstop] at hlt
    exact ⟨p, ⟨hle, hlt⟩, hsame⟩
  · rintro ⟨p, ⟨hle, hlt⟩, hsame⟩
    have hbase : (UInt64.ofNat (p.toNat / 4096 * 4096)).toNat = p.toNat / 4096 * 4096 := by
      rw [UInt64.toNat_ofNat']
      have := p.toNat_lt
      omega
    refine ⟨UInt64.ofNat (p.toNat / 4096 * 4096), (mem_pagesOf_iff halign).mpr ⟨?_, ?_, ?_⟩, ?_⟩
    · rw [hbase]
      omega
    · rw [UInt64.le_iff_toNat_le, hbase]
      omega
    · rw [UInt64.lt_iff_toNat_lt, hbase, hstop]
      omega
    · unfold SamePage at hsame ⊢
      rw [hbase]
      omega

/-- A `munmap` that returns 0 leaves no VMA in the range. It unmaps the pages of the range and no others exactly if no
    other mapped page shares a table entry with them, and outside the range the VMAs are as before exactly if the range
    cuts none. -/
theorem munmap_exact {s t : State Machine} (h : Trees lay node s.mem R) (hr : R (s.pcb.userSatp.toNat / 4096))
    (hfit : addr.toNat + roundUp length.toNat < 2 ^ 64) (hret : sysMunmap (memory lay node) s addr length = some (0, t)) :
    (∀ va, InRange addr length va → ∀ v ∈ t.pcb.vmas, v.contains va = false) ∧
    ((∀ va, Canonical va → t.mem.virtToPhys s.pcb.userSatp va =
      if InRange addr length va then none else s.mem.virtToPhys s.pcb.userSatp va) ↔ Unaliased s addr length) ∧
    ((∀ va, ¬InRange addr length va → ∀ v, v ∈ t.pcb.vmas ∧ v.contains va = true ↔ v ∈ s.pcb.vmas ∧ v.contains va = true) ↔
      ∀ v ∈ s.pcb.vmas, v.Uncut addr length) := by
  have hle := le_roundUp length.toNat
  have hlen : (pageAlignUp length).toNat = roundUp length.toNat := toNat_pageAlignUp (by unfold roundUp at hfit; omega)
  rw [sysMunmap] at hret
  split at hret
  · simp at hret
  split at hret
  · simp at hret
  rename_i hcheck _
  obtain ⟨haligned, hne⟩ := not_or.mp hcheck
  have hpos : length.toNat ≠ 0 := fun hzero => hne (UInt64.toNat_inj.mp hzero)
  have halign : addr.toNat % 4096 = 0 := by
    rw [← Nat.and_two_pow_sub_one_eq_mod addr.toNat 12]
    exact congrArg UInt64.toNat (not_not.mp haligned)
  obtain ⟨m, hfree, heq⟩ := map_eq_some_iff.mp hret
  cases heq
  have hstop : (addr + pageAlignUp length).toNat = addr.toNat + roundUp length.toNat := by
    rw [Word.toNat_add_of_lt (by omega), hlen]
  have hkept : ∀ v, v ∈ removeVma s.pcb.vmas addr (pageAlignUp length) ↔
      v ∈ s.pcb.vmas ∧ (v.stop.toNat ≤ addr.toNat ∨ addr.toNat + roundUp length.toNat ≤ v.start.toNat) := by
    intro v
    rw [removeVma, mem_filter, saturatingAdd, if_pos (by omega), decide_eq_true_eq, UInt64.le_iff_toNat_le,
      UInt64.le_iff_toNat_le, hstop]
  have hout : ∀ va, InRange addr length va → ∀ v ∈ removeVma s.pcb.vmas addr (pageAlignUp length),
    v.contains va = false := by
    intro va hva v hv
    have hoff := ((hkept v).mp hv).2
    refine Bool.eq_false_iff.mpr fun hc => ?_
    have hc := contains_iff.mp hc
    unfold InRange at hva
    omega
  have hmaps : ∀ va, m.virtToPhys s.pcb.userSatp va =
      if ∃ p, InRange addr length p ∧ SamePage p va then none else s.mem.virtToPhys s.pcb.userSatp va := by
    intro va
    rw [freePages_maps hfree, unmapPages_maps hr h]
    exact if_congr (samePage_pagesOf halign hstop) rfl rfl
  refine ⟨hout, ⟨fun hexact p va hp hva hnot hsame => ?_, fun hun va hva => ?_⟩, fun hsame v hv => ?_,
    fun huncut va hva v => ?_⟩
  · have hat : m.virtToPhys s.pcb.userSatp va = _ := hexact va hva
    rw [if_neg hnot, hmaps va, if_pos ⟨p, hp, hsame⟩] at hat
    exact hat.symm
  · refine (hmaps va).trans ?_
    by_cases hin : InRange addr length va
    · rw [if_pos ⟨va, hin, rfl⟩, if_pos hin]
    rw [if_neg hin]
    split
    · rename_i halias
      obtain ⟨p, hp, hsame⟩ := halias
      exact (hun p va hp hva hin hsame).symm
    · rfl
  · rintro ⟨va, hc, hva⟩ va' hc'
    by_contra hva'
    have hv' := ((hsame va' hva' v).mpr ⟨hv, hc'⟩).1
    simp [hout va hva v hv'] at hc
  · refine and_congr_left fun hc => ⟨fun hv => ((hkept v).mp hv).1, fun hv => (hkept v).mpr ⟨hv, ?_⟩⟩
    by_contra hcut
    have hc' := contains_iff.mp hc
    -- the greater one of the two starts lies in both
    by_cases hstart : addr.toNat ≤ v.start.toNat
    · exact hva (huncut v hv ⟨v.start, contains_iff.mpr ⟨le_refl _, by omega⟩, hstart, by omega⟩ va hc)
    · exact hva (huncut v hv ⟨addr, contains_iff.mpr (by omega), le_refl _, by omega⟩ va hc)

/-- A process with the one page of `onePage` and a VMA of two pages around it, whose frames are not the allocator's. -/
def oneMapped : Option (State Machine) :=
  (Paging.sixteen.bind Paging.onePage).map fun (f, _, m) =>
    ⟨{ freshPcb [⟨0x400000, 0x402000, PROT_READ, MAP_ANON, .physMap 0x9000, 0, false⟩] with userSatp := Paging.addrOf f }, m⟩

theorem oneMapped_trees {s : State Machine} (hs : oneMapped = some s) :
    ∃ R, R (s.pcb.userSatp.toNat / 4096) ∧ Trees Pmm.highKernel 0 s.mem R := by
  obtain ⟨⟨f, m, m'⟩, hx, rfl⟩ := map_eq_some_iff.mp hs
  obtain ⟨w, hw, hx⟩ := bind_eq_some_iff.mp hx
  obtain ⟨R, hr, h, hm⟩ := Paging.onePage_trees hw hx
  exact ⟨R, hr, (h.mapPage hr hm).1⟩

set_option maxRecDepth 100000 in
theorem oneMapped_unmapped : (oneMapped.bind fun s => (sysMunmap (memory Pmm.highKernel 0) s 0x400000 0x1001).map (s, ·)).map
    (fun (s, r) => (s.mem.virtToPhys s.pcb.userSatp 0x400000, r.1)) = some (some 0x9000, 0) := by
  decide +kernel

theorem munmap_exact_one : ∃ s t, oneMapped = some s ∧ s.mem.virtToPhys s.pcb.userSatp 0x400000 = some 0x9000 ∧
    sysMunmap (memory Pmm.highKernel 0) s 0x400000 0x1001 = some (0, t) ∧ t.mem.virtToPhys s.pcb.userSatp 0x400000 = none ∧
    ∀ v ∈ t.pcb.vmas, v.contains 0x401000 = false := by
  obtain ⟨⟨s, r, t⟩, hrun, hfacts⟩ := map_eq_some_iff.mp oneMapped_unmapped
  obtain ⟨s', hs, hrun⟩ := bind_eq_some_iff.mp hrun
  obtain ⟨rt, ht, heq⟩ := map_eq_some_iff.mp hrun
  cases heq
  obtain ⟨hmapped, rfl⟩ := Prod.mk.inj hfacts
  obtain ⟨R, hr, h⟩ := oneMapped_trees hs
  have hcan : ∀ p, InRange 0x400000 0x1001 p → Canonical p := by
    intro p hp
    have hlt : p.toNat < 0x400000 + 0x2000 := hp.2
    exact .inl (by omega)
  obtain ⟨hvmas, hpages, -⟩ := munmap_exact h hr (by decide) ht
  refine ⟨s, t, hs, hmapped, ht, ?_, hvmas 0x401000 (by decide)⟩
  exact (hpages.mpr (unaliased_of_canonical s (by decide) hcan) 0x400000 (by decide)).trans (if_pos (by decide))

set_option maxRecDepth 100000 in
/-- The second page of the VMA is unmapped: the first one stays mapped, without a VMA. -/
theorem munmap_drops : (oneMapped.bind fun s => (sysMunmap (memory Pmm.highKernel 0) s 0x401000 0x1000).map
    fun r => (r.1, r.2.pcb.vmas, r.2.mem.virtToPhys s.pcb.userSatp 0x400000)) = some (0, [], some 0x9000) := by
  decide +kernel

end Moxide.Mmap
