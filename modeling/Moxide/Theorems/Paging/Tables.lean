import Moxide.Theorems.Paging.Clone
import Moxide.Theorems.Pmm.Handout

/-! Page tables in frames that are held, which are never handed out again. -/

namespace Moxide.Paging
open Lib List Option
open Pmm (World Stock)

/-- The tables are a forest of frames that are held, and so are the pages, which are other frames. -/
structure Tables (lay : Pmm.Layout) (w : World) (m : Machine) (R : Nat → Prop) : Prop where
  phys : lay.kernelEnd ≤ 2 ^ 52
  pmm : w.pmm = m.pmm
  stock : Stock lay w
  live : w.pmm.live = true
  forest : Radix.Forest nextTable m.mem 3 R
  table : ∀ {t}, Table m.mem R t → 0 < w.held t
  page : ∀ {r p i f}, R r → p.length = 3 → Maps (leaf m.mem r p i) f → 0 < w.held f ∧ ¬Table m.mem R f

/-- Frames that were held are held as before. -/
structure Grown (w w' : World) : Prop where
  added : w'.added = w.added
  held : ∀ {g}, 0 < w.held g → w'.held g = w.held g

section
variable {lay : Pmm.Layout} {w w' w'' : World} {m m' m'' : Machine} {R R' : Nat → Prop} {node : Nat}
variable {r t f : Nat} {p : List Index} {i : Index} {e : UInt64} {cr3 va pa flags : UInt64}

theorem Grown.pos {g : Nat} (h : Grown w w') (hg : 0 < w.held g) : 0 < w'.held g := by
  rw [h.held hg]
  exact hg

theorem Grown.trans (h : Grown w w') (h' : Grown w' w'') : Grown w w'' :=
  ⟨h'.added.trans h.added, fun hg => (h'.held (h.pos hg)).trans (h.held hg)⟩

theorem Grown.grant {s : Pmm.State} (hzero : w.held f = 0) : Grown w ⟨s, w.added, w.grant 1 (some f)⟩ := by
  refine ⟨rfl, fun {g} hg => ?_⟩
  change w.grant 1 (some f) g = w.held g
  rw [World.grant_some, Function.update_of_ne]
  rintro rfl
  omega

theorem grant_self (hzero : w.held f = 0) : w.grant 1 (some f) f = 1 := by
  rw [World.grant_some, Function.update_self, hzero]

section
variable (h : Tables lay w m R)
include h

theorem Tables.lt (hheld : 0 < w.held f) : f < 2 ^ 40 := h.stock.lt h.phys hheld

theorem Tables.outside {mem : Nat → Index → UInt64} (hsame : ∀ t, Table m.mem R t → mem t = m.mem t) :
    Tables lay w { m with mem := mem } R where
  phys := h.phys
  pmm := h.pmm
  stock := h.stock
  live := h.live
  forest := Radix.Forest.outside h.forest hsame
  table ht := h.table ((Radix.node_outside hsame).mp ht)
  page {r p i f} hr hp hmaps := by
    rw [Same.outside hsame r p i hr hp] at hmaps
    exact ⟨(h.page hr hp hmaps).1, fun ht => (h.page hr hp hmaps).2 ((Radix.node_outside hsame).mp ht)⟩

theorem Tables.allocator (hpmm : w'.pmm = m'.pmm) (hmem : m'.mem = m.mem) (hstock : Stock lay w')
    (hlive : w'.pmm.live) (htable : ∀ {t}, Table m.mem R t → 0 < w'.held t)
    (hpage : ∀ {r p i f}, R r → p.length = 3 → Maps (leaf m.mem r p i) f → 0 < w'.held f) : Tables lay w' m' R := by
  refine ⟨h.phys, hpmm, hstock, hlive, hmem ▸ h.forest, fun ht => htable (hmem ▸ ht), fun hr hp hmaps => ?_⟩
  rw [hmem] at hmaps ⊢
  exact ⟨hpage hr hp hmaps, (h.page hr hp hmaps).2⟩

theorem Tables.alloc {o : Option Nat} (ha : m.allocPage lay node = (o, m')) :
    Tables lay ⟨m'.pmm, w.added, w.grant 1 o⟩ m' R ∧ m'.mem = m.mem ∧ ∀ f, o = some f → w.held f = 0 := by
  obtain ⟨hpmm, hmem⟩ := allocPage_split ha
  rw [← h.pmm] at hpmm
  obtain ⟨hstock, hlive, hfree⟩ := h.stock.alloc h.live hpmm
  have hmore : ∀ {g}, 0 < w.held g → 0 < w.grant 1 o g := by
    intro g hg
    cases o with
    | none => exact hg
    | some f => exact (Grown.grant (s := m'.pmm) (hfree f rfl)).pos hg
  exact ⟨h.allocator rfl hmem hstock hlive (fun ht => hmore (h.table ht)) fun hr hp hmaps => hmore (h.page hr hp hmaps).1,
    hmem, hfree⟩

theorem Tables.free_frame (hfree : w.held f = 0) :
    ¬Table m.mem R f ∧ ∀ {r p i}, R r → p.length = 3 → ¬Maps (leaf m.mem r p i) f := by
  refine ⟨fun ht => ?_, fun hr hp hmaps => ?_⟩
  · have hpos := h.table ht
    omega
  · have hpos := (h.page hr hp hmaps).1
    omega

theorem Tables.freePage {pa : UInt64} (hpa : pa.toNat = f * 4096) (hheld : 0 < w.held f)
    (htable : ¬Table m.mem R f) (hpage : ∀ {r p i}, R r → p.length = 3 → ¬Maps (leaf m.mem r p i) f)
    (hf : m.freePage lay pa = some m') :
    ∃ w', Tables lay w' m' R ∧ m'.mem = m.mem ∧ w'.added = w.added ∧ (∀ g, g ≠ f → w'.held g = w.held g) ∧
      (w.added f → w'.held f = w.held f - 1) := by
  obtain ⟨s, hs, rfl⟩ := map_eq_some_iff.mp hf
  rw [hpa, ← h.pmm] at hs
  rcases h.stock.free h.live hheld hs with ⟨-, hstock, hlive⟩ | ⟨hnot, rfl⟩
  · have hkeep : ∀ {g}, g ≠ f → 0 < w.held g → 0 < Function.update w.held f (w.held f - 1) g := fun hne hg => by
      rw [Function.update_of_ne hne]
      exact hg
    refine ⟨_, h.allocator rfl rfl hstock hlive (fun {t} ht => hkeep ?_ (h.table ht)) (fun {r p i g} hr hp hmaps =>
      hkeep ?_ (h.page hr hp hmaps).1), rfl, rfl, fun g hg => Function.update_of_ne hg _ _,
        fun _ => Function.update_self _ _ _⟩
    · rintro rfl
      exact htable ht
    · rintro rfl
      exact hpage hr hp hmaps
  · refine ⟨w, h.allocator rfl rfl h.stock h.live h.table fun hr hp hmaps => (h.page hr hp hmaps).1, rfl, rfl,
      fun _ _ => rfl, fun hadd => ?_⟩
    rw [hnot] at hadd
    cases hadd

end

/-! ### New tables -/

theorem Stock.supplies {n : Nat} : ∀ {w : World} {T : Nat → Prop}, Stock lay w → w.pmm.live → lay.kernelEnd ≤ 2 ^ 52 →
    (∀ t, T t → 0 < w.held t) → Supplies lay node n w.pmm T := by
  induction n with
  | zero => exact fun _ _ _ _ => trivial
  | succ n ih =>
    intro w T h hlive hphys hT f s ha
    obtain ⟨hstock, hlive', hfree⟩ := h.alloc hlive ha
    have hzero := hfree f rfl
    have hpos : 0 < w.grant 1 (some f) f := Nat.lt_of_lt_of_eq Nat.one_pos (grant_self hzero).symm
    refine ⟨hstock.lt hphys hpos, fun ht => ?_, ih hstock hlive' hphys ?_⟩
    · have hheld := hT f ht
      omega
    · rintro g (hg | rfl)
      · exact (Grown.grant (s := s) hzero).pos (hT g hg)
      · exact hpos

theorem Tables.trees (h : Tables lay w m R) : Trees lay node m R :=
  ⟨h.forest, fun _ => h.pmm ▸ Stock.supplies h.stock h.live h.phys fun _ => h.table⟩

theorem Takes.stock {s s' : Pmm.State} {fs : List Nat} (ht : Takes lay node s fs s') :
    ∀ {w : World}, w.pmm = s → Stock lay w →
    s.live → ∃ w' : World, w'.pmm = s' ∧ Stock lay w' ∧ s'.live ∧ Grown w w' ∧
      ∀ f ∈ fs, w.held f = 0 ∧ 0 < w'.held f := by
  induction ht with
  | nil => exact fun {w} hpmm h hlive => ⟨w, hpmm, h, hlive, ⟨rfl, fun _ => rfl⟩, fun _ hf => absurd hf not_mem_nil⟩
  | @cons s s₁ s₂ f fs ha _ ih =>
    rintro w rfl h hlive
    obtain ⟨hstock, hlive₁, hfree⟩ := h.alloc hlive ha
    obtain ⟨w', hpmm, h', hlive', hgrown, hnew⟩ := ih (w := ⟨s₁, w.added, w.grant 1 (some f)⟩) rfl hstock hlive₁
    have hzero := hfree f rfl
    have hgrant : Grown w ⟨s₁, w.added, w.grant 1 (some f)⟩ := .grant hzero
    refine ⟨w', hpmm, h', hlive', hgrant.trans hgrown, fun g hg => ?_⟩
    rcases mem_cons.mp hg with rfl | hg
    · exact ⟨hzero, hgrown.pos (Nat.lt_of_lt_of_eq Nat.one_pos (grant_self hzero).symm)⟩
    obtain ⟨hfree', hpos⟩ := hnew g hg
    refine ⟨Nat.eq_zero_of_not_pos fun hheld => ?_, hpos⟩
    have hstill := hgrant.pos hheld
    omega

section
variable (h : Tables lay w m R)
include h

theorem Tables.grow (hgrows : Grows lay node R R' m m') (hforest : Radix.Forest nextTable m'.mem 3 R')
    (hpage : ∀ {r p i f}, R' r → p.length = 3 → Maps (leaf m'.mem r p i) f → 0 < w.held f ∧ ¬Table m.mem R f) :
    ∃ w', Tables lay w' m' R' ∧ Grown w w' := by
  obtain ⟨fs, htakes, htable⟩ := hgrows
  obtain ⟨w', hpmm, hstock, hlive, hgrown, hnew⟩ := htakes.stock h.pmm h.stock (h.pmm ▸ h.live)
  refine ⟨w', ⟨h.phys, hpmm, hstock, hpmm ▸ hlive, hforest, fun ht => ?_, fun hr hp hmaps => ?_⟩, hgrown⟩
  · rcases htable ht with ht | hmem
    · exact hgrown.pos (h.table ht)
    · exact (hnew _ hmem).2
  · obtain ⟨hpos, hout⟩ := hpage hr hp hmaps
    refine ⟨hgrown.pos hpos, fun ht => (htable ht).elim hout fun hmem => ?_⟩
    have hzero := (hnew _ hmem).1
    omega

theorem Tables.addTable (ha : m.allocTable lay node = some (f, m')) :
    Blank lay node R m' f ∧ Same R m.mem m'.mem ∧ ∃ w', Tables lay w' m' (fun r => R r ∨ r = f) ∧ Grown w w' := by
  obtain ⟨hf, htakes, hout⟩ := h.trees.allocTable ha
  refine ⟨hf, .outside hout, h.grow ⟨[f], htakes, fun hg => ?_⟩ hf.addRoot.forest ?_⟩
  · exact ((Radix.node_addRoot hf.fresh).mp hg).imp (Radix.node_outside hout).mp mem_singleton.mpr
  · rintro r p i g (hr | rfl) hp hmaps
    · rw [Same.outside hout r p i hr hp] at hmaps
      exact h.page hr hp hmaps
    · rw [hf.leaf hp] at hmaps
      exact absurd hmaps (not_maps_zero g)

theorem Tables.mapPage (hr : R (cr3.toNat / 4096)) (hheld : 0 < w.held (frameOf pa))
    (htable : ¬Table m.mem R (frameOf pa)) (hm : m.mapPage lay node cr3 va pa flags = some m') :
    ∃ w', Tables lay w' m' R ∧ Grown w w' ∧
      Updated R (cr3.toNat / 4096) (upper va) (index va 12) (pageEntry pa flags) m.mem m'.mem := by
  obtain ⟨htrees, hgrows, hupd⟩ := h.trees.mapPage hr hm
  obtain ⟨w', htables, hgrown⟩ := h.grow hgrows htrees.forest fun {r p i f} hr hp hmaps => by
    rw [hupd r p i hr hp] at hmaps
    split at hmaps
    · obtain ⟨-, rfl⟩ := hmaps
      rw [frameOf_pageEntry]
      exact ⟨hheld, htable⟩
    · exact h.page hr hp hmaps
  exact ⟨w', htables, hgrown, hupd⟩

theorem Tables.unmapPage (hr : R (cr3.toNat / 4096)) (va : UInt64) :
    (m.virtToPhys cr3 va = none ∧ m.unmapPage cr3 va = (none, m)) ∨
      ∃ pa m', m.virtToPhys cr3 va = some pa ∧ m.unmapPage cr3 va = (some pa, m') ∧ m'.pmm = m.pmm ∧ Tables lay w m' R ∧
        (∀ g, Table m'.mem R g ↔ Table m.mem R g) ∧
        Updated R (cr3.toNat / 4096) (upper va) (index va 12) 0 m.mem m'.mem := by
  rcases (h.trees : Trees lay 0 m R).unmapPage hr va with hnone | ⟨pa, m', hpa, hu, hpmm, htrees, hnode, hupd⟩
  · exact .inl hnone
  refine .inr ⟨pa, m', hpa, hu, hpmm, ⟨h.phys, h.pmm.trans hpmm.symm, h.stock, h.live, htrees.forest,
    fun ht => h.table ((hnode _).mp ht), fun {r p i f} hr hp hmaps => ?_⟩, hnode, hupd⟩
  rw [hupd r p i hr hp] at hmaps
  rw [hnode f]
  split at hmaps
  · exact absurd hmaps (not_maps_zero f)
  · exact h.page hr hp hmaps

theorem Tables.clonePml4Cow {cr3 cr3' : UInt64} (hr : R (cr3.toNat / 4096))
    (hm : m.clonePml4Cow lay node cr3 = some (cr3', m')) :
    ∃ w', Tables lay w' m' (fun x => R x ∨ x = cr3'.toNat / 4096) ∧ Grown w w' := by
  obtain ⟨htrees, -, hgrows, hold, hchild, -⟩ := h.trees.clonePml4Cow hr hm
  refine h.grow hgrows htrees.forest ?_
  rintro r p i f (hr' | rfl) hp hmaps
  · rw [hold hr' hp] at hmaps
    split at hmaps
    · exact h.page hr' hp (cowEntry_maps.mp hmaps)
    · exact h.page hr' hp hmaps
  · rw [hchild hp] at hmaps
    split at hmaps
    · exact h.page hr hp (cowEntry_maps.mp hmaps)
    · exact absurd hmaps (not_maps_zero f)

end

theorem store_eq (m : Machine) (cr3 va : UInt64) (i : Index) (x : UInt64) :
    m.store cr3 va i x = if pte m cr3 va &&& PTE_PRESENT = 0 ∨ pte m cr3 va &&& PTE_WRITABLE = 0 then m
      else m.set (frameOf (pte m cr3 va)) i x := by
  unfold Machine.store
  rcases walkRo_cases m cr3 va with ⟨hnone, hzero⟩ | ⟨t, hsome, -, he⟩
  · rw [hnone, hzero]
    rfl
  · rw [hsome, he]

theorem Tables.store (h : Tables lay w m R) (hr : R (cr3.toNat / 4096)) (i : Index) (x : UInt64) :
    Tables lay w (m.store cr3 va i x) R ∧ Same R m.mem (m.store cr3 va i x).mem := by
  rw [store_eq]
  split
  · exact ⟨h, fun _ _ _ _ _ => rfl⟩
  rename_i hok
  have hmaps : Maps (pte m cr3 va) (frameOf (pte m cr3 va)) := ⟨fun hzero => hok (.inl hzero), rfl⟩
  have hout : ∀ t, Table m.mem R t → Radix.set m.mem (frameOf (pte m cr3 va)) i x t = m.mem t := by
    intro t ht
    refine Radix.set_of_ne_node ?_
    rintro rfl
    exact (h.page hr rfl hmaps).2 ht
  exact ⟨h.outside hout, Same.outside hout⟩

theorem pteAddr_some {pt : Nat} {i : Index} (h : m.pteAddr cr3 va = some (pt, i)) : m.walkRo cr3 va = some (pt, i) := by
  obtain ⟨hpml4, h⟩ := ite_none_left_eq_some.mp h
  obtain ⟨hpdpt, h⟩ := ite_none_left_eq_some.mp h
  obtain ⟨-, h⟩ := ite_none_left_eq_some.mp h
  obtain ⟨hpd, h⟩ := ite_none_left_eq_some.mp h
  obtain ⟨-, h⟩ := ite_none_left_eq_some.mp h
  simp only [Machine.walkRo, upper, Radix.walk, nextTable, hpml4, hpdpt, hpd, if_false, bind_some, map_some]
  exact h

section
variable {pt : Nat} {i : Index} (h : m.walkRo cr3 va = some (pt, i))
include h

theorem virtToPhys_sentinel : (m.set pt i SENTINEL_PTE).virtToPhys cr3 va = none := by
  rw [virtToPhys_eq]
  obtain ⟨u, hu, heq⟩ := map_eq_some_iff.mp h
  obtain ⟨rfl, rfl⟩ := Prod.mk.inj heq
  have hzero : pte (m.set u (index va 12) SENTINEL_PTE) cr3 va = 0 := by
    have hwalk : Radix.walk nextTable (Radix.set m.mem u (index va 12) SENTINEL_PTE) (cr3.toNat / 4096)
      (upper va) = none ∨ _ :=
      Radix.walk_set_none nextTable_zero
    rcases hwalk with hnone | hsame
    · exact leaf_none hnone
    · exact (leaf_eq (hsame.trans hu)).trans Radix.set_self
  rw [hzero]
  rfl

theorem resolve_restores : (m.set pt i SENTINEL_PTE).resolve lay node cr3 va pt i (m.mem pt i) = some (false, m) := by
  unfold Machine.resolve
  rw [virtToPhys_sentinel h]
  simp only [Machine.set, Radix.set_undo]

end

theorem handleCowFault_unchanged {errorCode : UInt64} {b : Bool}
    (h : m.handleCowFault lay node cr3 va errorCode = some (b, m')) : m' = m := by
  unfold Machine.handleCowFault at h
  split at h
  · cases h
    rfl
  split at h
  · cases h
    rfl
  split at h
  · cases h
    rfl
  rename_i pt i hpt
  dsimp only at h
  split at h
  · cases h
    rfl
  rw [resolve_restores (pteAddr_some hpt)] at h
  cases h
  rfl

end

end Moxide.Paging
