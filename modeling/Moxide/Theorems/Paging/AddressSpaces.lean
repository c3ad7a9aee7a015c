import Moxide.Theorems.Paging.Isolation

/-! An address space is a map from pages to physical pages, which the clone copies and a fault leaves as it is. -/

namespace Moxide.Paging
open Lib Option
open Pmm (World)

/-- The addresses are on one page of the 48-bit space. -/
def SamePage (va va' : UInt64) : Prop := va'.toNat % 2 ^ 48 / 4096 = va.toNat % 2 ^ 48 / 4096

instance (va va' : UInt64) : Decidable (SamePage va va') := inferInstanceAs (Decidable (_ = _))

section
variable {lay : Pmm.Layout} {node : Nat} {m m' : Machine} {R : Nat → Prop} {cr3 cr3' va va' : UInt64} {e : UInt64}

theorem index_val {s : UInt64} (hs : s.toNat < 64) : (index va s).val = va.toNat / 2 ^ s.toNat % 512 := by
  unfold index
  rw [Fin.val_ofNat, UInt64.toNat_and, UInt64.toNat_shiftRight, Nat.mod_eq_of_lt hs, Nat.shiftRight_eq_div_pow]
  rw [show (0x1FF : UInt64).toNat = 2 ^ 9 - 1 from rfl, Nat.and_two_pow_sub_one_eq_mod]
  omega

theorem samePage_iff : upper va' = upper va ∧ index va' 12 = index va 12 ↔ SamePage va va' := by
  unfold upper SamePage
  simp only [List.cons.injEq, and_true, Fin.ext_iff]
  rw [index_val (by decide), index_val (by decide), index_val (by decide), index_val (by decide), index_val (by decide),
    index_val (by decide), index_val (by decide), index_val (by decide)]
  rw [show (39 : UInt64).toNat = 39 from rfl, show (30 : UInt64).toNat = 30 from rfl, show (21 : UInt64).toNat = 21 from rfl,
    show (12 : UInt64).toNat = 12 from rfl]
  omega

section
variable (h : Updated R (cr3.toNat / 4096) (upper va) (index va 12) e m.mem m'.mem)
include h

theorem Updated.pte (hr : R (cr3'.toNat / 4096)) :
    Paging.pte m' cr3' va' =
      if cr3'.toNat / 4096 = cr3.toNat / 4096 ∧ SamePage va va' then e else Paging.pte m cr3' va' := by
  unfold Paging.pte
  rw [h _ _ _ hr rfl]
  simp only [samePage_iff]

theorem Updated.virtToPhys (hr : R (cr3'.toNat / 4096)) :
    m'.virtToPhys cr3' va' = if cr3'.toNat / 4096 = cr3.toNat / 4096 ∧ SamePage va va' then
      if e &&& PTE_PRESENT = 0 then none else some (e &&& ADDR_MASK) else m.virtToPhys cr3' va' := by
  rw [virtToPhys_eq, virtToPhys_eq, h.pte hr]
  split
  · rfl
  · rfl

end

/-- `unmap_page` clears one page of one address space and returns what it held. -/
theorem Trees.unmapPage_maps (h : Trees lay node m R) (hr : R (cr3.toNat / 4096)) (va : UInt64) :
    (m.unmapPage cr3 va).1 = m.virtToPhys cr3 va ∧ Trees lay node (m.unmapPage cr3 va).2 R ∧
      ∀ cr3' va', R (cr3'.toNat / 4096) → (m.unmapPage cr3 va).2.virtToPhys cr3' va' =
        if cr3'.toNat / 4096 = cr3.toNat / 4096 ∧ SamePage va va' then none else m.virtToPhys cr3' va' := by
  rcases h.unmapPage hr va with ⟨hnone, hu⟩ | ⟨pa, u, hpa, hu, -, htrees, -, hupd⟩
  · rw [hu]
    refine ⟨hnone.symm, h, fun cr3' va' _ => ?_⟩
    split
    · rename_i hat
      obtain ⟨hup, hidx⟩ := samePage_iff.mpr hat.2
      have hpte : pte m cr3' va' = pte m cr3 va := by rw [pte, pte, hat.1, hup, hidx]
      rw [virtToPhys_eq, hpte, ← virtToPhys_eq, hnone]
    · rfl
  · rw [hu]
    refine ⟨hpa.symm, htrees, fun cr3' va' hr' => ?_⟩
    rw [hupd.virtToPhys hr', if_pos (by decide : (0 : UInt64) &&& PTE_PRESENT = 0)]

/-- The tables implement a map: `map_page` sets one page of one address space to the physical page of `pa`, `unmap_page`
    clears one and returns what it held, and the tables stay trees. -/
theorem page_table_map (h : Trees lay node m R) (hr : R (cr3.toNat / 4096)) (va : UInt64) :
    (∀ pa flags m', m.mapPage lay node cr3 va pa flags = some m' → Trees lay node m' R ∧
      ∀ cr3' va', R (cr3'.toNat / 4096) → m'.virtToPhys cr3' va' =
        if cr3'.toNat / 4096 = cr3.toNat / 4096 ∧ SamePage va va' then some (pa &&& ADDR_MASK) else m.virtToPhys cr3' va') ∧
    (m.unmapPage cr3 va).1 = m.virtToPhys cr3 va ∧ Trees lay node (m.unmapPage cr3 va).2 R ∧
      ∀ cr3' va', R (cr3'.toNat / 4096) → (m.unmapPage cr3 va).2.virtToPhys cr3' va' =
        if cr3'.toNat / 4096 = cr3.toNat / 4096 ∧ SamePage va va' then none else m.virtToPhys cr3' va' := by
  refine ⟨fun pa flags m' hm => ?_, h.unmapPage_maps hr va⟩
  obtain ⟨htrees, -, hupd⟩ := h.mapPage hr hm
  refine ⟨htrees, fun cr3' va' hr' => ?_⟩
  rw [hupd.virtToPhys hr', if_neg (pageEntry_present pa flags), pageEntry_addr]

/-- A fault on a copy-on-write page is refused, and nothing changes. -/
theorem cow_fault_refused (errorCode : UInt64) (h : pte m cr3 va &&& PTE_COW ≠ 0) :
    m.handleCowFault lay node cr3 va errorCode = some (false, m) := by
  unfold Machine.handleCowFault
  split
  · rfl
  split
  · rfl
  split
  · rfl
  rename_i pt i hpt
  have hro := pteAddr_some hpt
  have hcow : m.mem pt i &&& PTE_COW ≠ 0 := by
    rcases walkRo_cases m cr3 va with ⟨hnone, -⟩ | ⟨t, hsome, -, he⟩
    · rw [hnone] at hro
      cases hro
    rw [hsome] at hro
    cases hro
    rw [← he]
    exact h
  rw [if_neg hcow, resolve_restores hro]

end

/-! ### An address space in sixteen frames -/

/-- A root, and the tables and entry for one page under it. -/
def onePage (w : World) : Option (Nat × Machine × Machine) :=
  (Machine.allocTable Pmm.highKernel 0 ⟨w.pmm, fun _ _ => 0⟩).bind fun (f, m) =>
    (m.mapPage Pmm.highKernel 0 (addrOf f) 0x400000 0x9000 (PTE_WRITABLE ||| PTE_USER)).map (f, m, ·)

def cloned (w : World) : Option ((Nat × Machine × Machine) × UInt64 × Machine) :=
  (onePage w).bind fun x => (x.2.2.clonePml4Cow Pmm.highKernel 0 (addrOf x.1)).map (x, ·)

theorem onePage_trees {w : World} {f : Nat} {m m' : Machine} (hw : sixteen = some w) (h : onePage w = some (f, m, m')) :
    ∃ R, R ((addrOf f).toNat / 4096) ∧ Trees Pmm.highKernel 0 m R ∧
      m.mapPage Pmm.highKernel 0 (addrOf f) 0x400000 0x9000 (PTE_WRITABLE ||| PTE_USER) = some m' := by
  obtain ⟨⟨g, u⟩, hu, h⟩ := bind_eq_some_iff.mp h
  obtain ⟨v, hv, heq⟩ := map_eq_some_iff.mp h
  cases heq
  obtain ⟨hf, -, -⟩ := (Spaces.sixteen hw fun _ _ => 0).tables.trees.allocTable hu
  exact ⟨_, .inr (addrOf_div hf.lt), hf.addRoot, hv⟩

set_option maxRecDepth 100000 in
theorem cloned_facts : (sixteen.bind cloned).map (fun ((f, _, m), _, m') =>
    (m.virtToPhys (addrOf f) 0x401000, decide (pte m' (addrOf f) 0x400000 &&& PTE_PRESENT ≠ 0 ∧
      pte m' (addrOf f) 0x400000 &&& PTE_COW ≠ 0), (m'.allocPage Pmm.highKernel 0).1.isSome,
      (m'.handleCowFault Pmm.highKernel 0 (addrOf f) 0x400000 7).map Prod.fst)) = some (none, true, true, some false) := by
  decide +kernel

theorem cloned_cases : ∃ w f m m₁ child m₂, sixteen = some w ∧ onePage w = some (f, m, m₁) ∧
    m₁.clonePml4Cow Pmm.highKernel 0 (addrOf f) = some (child, m₂) ∧ m₁.virtToPhys (addrOf f) 0x401000 = none ∧
    (pte m₂ (addrOf f) 0x400000 &&& PTE_PRESENT ≠ 0 ∧ pte m₂ (addrOf f) 0x400000 &&& PTE_COW ≠ 0) ∧
    (m₂.allocPage Pmm.highKernel 0).1.isSome = true ∧
    (m₂.handleCowFault Pmm.highKernel 0 (addrOf f) 0x400000 7).map Prod.fst = some false := by
  obtain ⟨⟨⟨f, m, m₁⟩, child, m₂⟩, hs, hfacts⟩ := map_eq_some_iff.mp cloned_facts
  obtain ⟨w, hw, hs⟩ := bind_eq_some_iff.mp hs
  obtain ⟨x, hx, hs⟩ := bind_eq_some_iff.mp hs
  obtain ⟨y, hy, heq⟩ := map_eq_some_iff.mp hs
  cases heq
  simp only [Prod.mk.injEq, decide_eq_true_eq] at hfacts
  exact ⟨w, f, m, m₁, child, m₂, hw, hx, hy, hfacts⟩

theorem page_table_map_sixteen : ∃ w f m m', sixteen = some w ∧ onePage w = some (f, m, m') ∧
    m'.virtToPhys (addrOf f) 0x400FFF = some 0x9000 := by
  obtain ⟨w, f, m, m', -, -, hw, hx, -⟩ := cloned_cases
  obtain ⟨R, hr, h, hm⟩ := onePage_trees hw hx
  have hat := ((page_table_map h hr 0x400000).1 _ _ _ hm).2 (addrOf f) 0x400FFF hr
  rw [if_pos ⟨rfl, by decide⟩] at hat
  exact ⟨w, f, m, m', hw, hx, hat⟩

theorem cow_fault_refused_sixteen : ∃ m f, pte m (addrOf f) 0x400000 &&& PTE_COW ≠ 0 ∧
    m.handleCowFault Pmm.highKernel 0 (addrOf f) 0x400000 7 = some (false, m) := by
  obtain ⟨w, f, m, m₁, child, m₂, -, -, -, -, hcow, -⟩ := cloned_cases
  exact ⟨m₂, f, hcow.2, cow_fault_refused 7 hcow.2⟩

/-- After a fork, with frames left, the parent writes to its page and the fault is not resolved. -/
theorem cow_fault_stuck : ∃ w f m m₁ child m₂, sixteen = some w ∧ onePage w = some (f, m, m₁) ∧
    m₁.clonePml4Cow Pmm.highKernel 0 (addrOf f) = some (child, m₂) ∧
    (pte m₂ (addrOf f) 0x400000 &&& PTE_PRESENT ≠ 0 ∧ pte m₂ (addrOf f) 0x400000 &&& PTE_COW ≠ 0) ∧
    (m₂.allocPage Pmm.highKernel 0).1.isSome = true ∧
    (m₂.handleCowFault Pmm.highKernel 0 (addrOf f) 0x400000 7).map Prod.fst = some false := by
  obtain ⟨w, f, m, m₁, child, m₂, hw, hx, hy, -, hrest⟩ := cloned_cases
  exact ⟨w, f, m, m₁, child, m₂, hw, hx, hy, hrest⟩

end Moxide.Paging
