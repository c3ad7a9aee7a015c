import Moxide.Theorems.Paging.Tables

/-! The address spaces of all processes, and what the steps of the system do to their pages. -/

namespace Moxide.Paging
open Lib List Option
open Pmm (World)

/-- The frame of the top table. -/
def root (p : Mmap.Pcb) : Nat := p.userSatp.toNat / 4096

def System.roots (s : System) (r : Nat) : Prop := ∃ p ∈ s.procs, root p = r

def System.start (pmm : Pmm.State) (mem : Nat → Index → UInt64) : System := ⟨⟨pmm, mem⟩, [], fun _ => false⟩

/-- The tables of all processes are trees, each with a root of its own. -/
structure Spaces (lay : Pmm.Layout) (w : World) (s : System) : Prop where
  tables : Tables lay w s.mach s.roots
  distinct : (s.procs.map root).Nodup

/-- The four indices of a page. -/
abbrev Vpn := Index × Index × Index × Index

def System.entry (s : System) (pid : Nat) (v : Vpn) : UInt64 :=
  match s.procs[pid]? with
  | some p => leaf s.mach.mem (root p) [v.1, v.2.1, v.2.2.1] v.2.2.2
  | none => 0

section
variable {lay : Pmm.Layout} {w : World} {s t : System} {m : Machine} {node pid : Nat} {p pcb : Mmap.Pcb}

theorem roots_setMach : (s.setMach m).roots = s.roots := rfl

theorem roots_of_mem (hp : s.procs[pid]? = some p) : s.roots (root p) := ⟨p, mem_of_getElem? hp, rfl⟩

theorem roots_addProc : (s.addProc p).roots = fun x => s.roots x ∨ x = root p := by
  funext x
  refine propext ⟨?_, ?_⟩
  · rintro ⟨q, hq, rfl⟩
    rcases mem_append.mp hq with hq | hq
    · exact .inl ⟨q, hq, rfl⟩
    · rw [mem_singleton.mp hq]
      exact .inr rfl
  · rintro (⟨q, hq, rfl⟩ | rfl)
    · exact ⟨q, mem_append_left _ hq, rfl⟩
    · exact ⟨p, mem_append_right _ (mem_singleton_self p), rfl⟩

theorem map_root_setProc (hp : s.procs[pid]? = some p) (hroot : root pcb = root p) :
    (s.setProc pid pcb).procs.map root = s.procs.map root := by
  change (s.procs.set pid pcb).map root = _
  refine ext_getElem? fun n => ?_
  rw [map_set, getElem?_set, hroot]
  split
  · rename_i hn
    subst hn
    have hlt : pid < (s.procs.map root).length := by
      rw [length_map]
      exact (List.getElem?_eq_some_iff.mp hp).1
    rw [if_pos hlt, getElem?_map, hp, map_some]
  · rfl

theorem roots_eq (h : t.procs.map root = s.procs.map root) : t.roots = s.roots := by
  funext x
  have hmem : ∀ u : System, u.roots x ↔ x ∈ u.procs.map root := fun u => List.mem_map.symm
  exact propext (by rw [hmem, hmem, h])

theorem Spaces.add {w' : World} (h : Spaces lay w s) (hnew : ¬s.roots (root p))
    (htables : Tables lay w' m fun x => s.roots x ∨ x = root p) : Spaces lay w' ((s.setMach m).addProc p) := by
  refine ⟨?_, ?_⟩
  · rw [roots_addProc]
    exact htables
  · change ((s.procs ++ [p]).map root).Nodup
    rw [map_append, nodup_append]
    refine ⟨h.distinct, nodup_singleton _, ?_⟩
    rintro a ha b hb rfl
    rw [map_singleton, mem_singleton] at hb
    subst hb
    exact hnew (List.mem_map.mp ha)

theorem Spaces.set {w' : World} (h : Spaces lay w s) (hp : s.procs[pid]? = some p) (hsatp : pcb.userSatp = p.userSatp)
    (htables : Tables lay w' m s.roots) :
    Spaces lay w' ((s.setMach m).setProc pid pcb) ∧ ((s.setMach m).setProc pid pcb).roots = s.roots := by
  have hroot : root pcb = root p := by rw [root, hsatp, root]
  have hmap : ((s.setMach m).setProc pid pcb).procs.map root = s.procs.map root :=
    map_root_setProc (s := s.setMach m) hp hroot
  have hroots := roots_eq hmap
  refine ⟨⟨?_, ?_⟩, hroots⟩
  · rw [hroots]
    exact htables
  · rw [hmap]
    exact h.distinct

theorem user_setMach {f : Nat} : (s.setMach m).user f ↔
    s.user f ∧ ((s.mach.pmm.info f).refcount ≠ 0 ∨ (m.pmm.info f).refcount = 0) := by
  simp [System.setMach]

/-! ### Steps -/

/-- A process with the new root `r` has come. -/
structure Joined (lay : Pmm.Layout) (w : World) (s : System) (r : Nat) (w' : World) (t : System) :
    Prop extends Grown w w' where
  spaces : Spaces lay w' t
  new : ¬s.roots r
  roots : t.roots = fun x => s.roots x ∨ x = r
  user : t.user = (s.setMach t.mach).user

theorem Spaces.spawn (h : Spaces lay w s) (hs : s.step lay (.spawn node pcb) = some t) :
    ∃ w' r, Joined lay w s r w' t ∧ Same s.roots s.mach.mem t.mach.mem ∧ ∀ {q j}, q.length = 3 →
    leaf t.mach.mem r q j = 0 := by
  obtain ⟨⟨f, m⟩, hm, rfl⟩ := map_eq_some_iff.mp hs
  obtain ⟨hf, hsame, w', htables, hgrown⟩ := h.tables.addTable hm
  have hroot : root { pcb with userSatp := addrOf f } = f := addrOf_div hf.lt
  have hnew : ¬s.roots f := fun hR => hf.fresh.new ⟨f, [], hR, Nat.zero_le 3, rfl⟩
  have hadd : Spaces lay w' ((s.setMach m).addProc { pcb with userSatp := addrOf f }) := by
    refine h.add ?_ ?_
    · rw [hroot]
      exact hnew
    · rw [hroot]
      exact htables
  refine ⟨w', f, ⟨hgrown, hadd, hnew, ?_, rfl⟩, hsame, hf.leaf⟩
  rw [roots_addProc, hroot]
  rfl

/-- The child has the parent's pages, both copy-on-write. -/
theorem Spaces.fork (h : Spaces lay w s) (hp : s.procs[pid]? = some p) (hs : s.step lay (.fork node pid) = some t) :
    ∃ w' r, Joined lay w s r w' t ∧
      (∀ {x q j}, s.roots x → q.length = 3 → leaf t.mach.mem x q j =
        if x = root p ∧ leaf s.mach.mem x q j &&& PTE_PRESENT ≠ 0
        then cowEntry (leaf s.mach.mem x q j) else leaf s.mach.mem x q j) ∧
      ∀ {q j}, q.length = 3 → leaf t.mach.mem r q j = if leaf s.mach.mem (root p) q j &&& PTE_PRESENT ≠ 0
        then cowEntry (leaf s.mach.mem (root p) q j) else 0 := by
  simp only [System.step, hp, bind_eq_bind, bind_some] at hs
  obtain ⟨⟨cr3, m⟩, hm, rfl⟩ := map_eq_some_iff.mp hs
  obtain ⟨-, hnew, -, hold, hchild, -⟩ := h.tables.trees.clonePml4Cow (roots_of_mem hp) hm
  obtain ⟨w', htables, hgrown⟩ := h.tables.clonePml4Cow (roots_of_mem hp) hm
  exact ⟨w', cr3.toNat / 4096, ⟨hgrown, h.add hnew htables, hnew, roots_addProc, rfl⟩, hold, hchild⟩

theorem fault_eq {va errorCode : UInt64} (hp : s.procs[pid]? = some p)
    (hs : s.step lay (.fault node pid va errorCode) = some t) : t = s.setMach s.mach := by
  simp only [System.step, hp, bind_eq_bind, bind_some] at hs
  obtain ⟨⟨b, m⟩, hm, rfl⟩ := map_eq_some_iff.mp hs
  rw [handleCowFault_unchanged hm]

theorem setMach_self : s.setMach s.mach = s := by
  simp only [System.setMach]
  congr 1
  funext f
  by_cases hf : (s.mach.pmm.info f).refcount = 0 <;> simp [hf]

/-- The page of `va` is set to the frame `f`, to which nobody held a reference. -/
structure Mapped (lay : Pmm.Layout) (w : World) (s : System) (p : Mmap.Pcb) (va flags : UInt64) (f : Nat) (w' : World)
    (t : System) : Prop extends Grown w w' where
  spaces : Spaces lay w' t
  procs : t.procs = s.procs
  free : w.held f = 0
  one : w'.held f = 1
  pages : Updated s.roots (root p) (upper va) (index va 12) (pageEntry (addrOf f) flags) s.mach.mem t.mach.mem
  frame : frameOf (addrOf f) = f
  user : t.user = Function.update (s.setMach t.mach).user f true

theorem Mapped.maps {f : Nat} {va flags : UInt64} {w' : World} (h : Mapped lay w s p va flags f w' t) :
    Maps (pageEntry (addrOf f) flags) f :=
  ⟨pageEntry_present _ _, by rw [frameOf_pageEntry, h.frame]⟩

theorem Updated.maps {R : Nat → Prop} {r x f g : Nat} {q₀ q : List Index} {i j : Index} {e : UInt64}
    {mem mem' : Nat → Index → UInt64} (h : Updated R r q₀ i e mem mem') (he : Maps e f)
    (hfree : ∀ {x q j}, R x → q.length = 3 → ¬Maps (leaf mem x q j) f) (hx : R x) (hq : q.length = 3)
    (hm : Maps (leaf mem' x q j) g) : ((x = r ∧ q = q₀ ∧ j = i) ∧ g = f) ∨
      (g ≠ f ∧ leaf mem' x q j = leaf mem x q j ∧ Maps (leaf mem x q j) g) := by
  rw [h x q j hx hq] at hm ⊢
  split at hm
  · rename_i hat
    exact .inl ⟨hat, hm.2.symm.trans he.2⟩
  rename_i hat
  rw [if_neg hat]
  refine .inr ⟨?_, rfl, hm⟩
  rintro rfl
  exact hfree hx hq hm

section
variable (h : Spaces lay w s) (hp : s.procs[pid]? = some p)
include h hp

theorem Spaces.map {va flags : UInt64} (hs : s.step lay (.map node pid va flags) = some t) :
    (∃ w', Spaces lay w' t ∧ t.procs = s.procs ∧ t.mach.mem = s.mach.mem ∧ w'.added = w.added ∧ w'.held = w.held ∧
      t.user = (s.setMach t.mach).user) ∨
      ∃ f m w', s.mach.allocPage lay node = (some f, m) ∧ ((m.pmm.info f).refcount ≠ 0 → w.added f) ∧
        Mapped lay w s p va flags f w' t := by
  simp only [System.step, hp, bind_eq_bind, bind_some] at hs
  split at hs
  · rename_i m hm
    obtain rfl := some.inj hs
    obtain ⟨htables, hmem, -⟩ := h.tables.alloc hm
    exact .inl ⟨_, ⟨htables, h.distinct⟩, rfl, hmem, rfl, rfl, rfl⟩
  rename_i f m hm
  obtain ⟨u, hu, rfl⟩ := map_eq_some_iff.mp hs
  obtain ⟨htables, hmem, hfree⟩ := h.tables.alloc hm
  have hzero := hfree f rfl
  have hheld : 0 < w.grant 1 (some f) f := Nat.lt_of_lt_of_eq Nat.one_pos (grant_self hzero).symm
  have hframe : frameOf (addrOf f) = f := frameOf_addrOf (htables.lt hheld)
  have hpos : 0 < w.grant 1 (some f) (frameOf (addrOf f)) := by
    rw [hframe]
    exact hheld
  have hout : ¬Table m.mem s.roots (frameOf (addrOf f)) := by
    rw [hframe, hmem]
    exact (h.tables.free_frame hzero).1
  obtain ⟨w', htables', hgrown, hupd⟩ := htables.mapPage (roots_of_mem hp) hpos hout hu
  refine .inr ⟨f, m, w', hm, fun hcount => ?_, ⟨(Grown.grant hzero).trans hgrown, ⟨htables', h.distinct⟩, rfl, hzero, ?_, ?_,
    hframe, rfl⟩⟩
  · refine Bool.eq_true_of_not_eq_false fun hnot => hcount ?_
    exact htables.stock.plain hnot
  · exact (hgrown.held hheld).trans (grant_self hzero)
  · rw [hmem] at hupd
    exact hupd

theorem Spaces.store {va x : UInt64} {i : Index} (hs : s.step lay (.store pid va i x) = some t) :
    Spaces lay w t ∧ t = s.setMach (s.mach.store p.userSatp va i x) ∧ Same s.roots s.mach.mem t.mach.mem := by
  simp only [System.step, hp, map_some, some.injEq] at hs
  subst hs
  obtain ⟨htables, hsame⟩ := h.tables.store (roots_of_mem hp) i x
  exact ⟨⟨htables, h.distinct⟩, rfl, hsame⟩

end

/-! ### Pages by process -/

theorem entry_eq (hp : s.procs[pid]? = some p) (v : Vpn) :
    s.entry pid v = leaf s.mach.mem (root p) [v.1, v.2.1, v.2.2.1] v.2.2.2 := by
  rw [System.entry, hp]

theorem entry_leaf {f : Nat} {v : Vpn} (hm : Maps (s.entry pid v) f) :
    ∃ p, s.procs[pid]? = some p ∧ s.entry pid v = leaf s.mach.mem (root p) [v.1, v.2.1, v.2.2.1] v.2.2.2 := by
  cases hp : s.procs[pid]? with
  | none =>
    rw [System.entry, hp] at hm
    exact absurd hm (not_maps_zero f)
  | some p => exact ⟨p, rfl, entry_eq hp v⟩

theorem leaf_of_entry {c : UInt64 → Prop} (hp : s.procs[pid]? = some p) (h : ∀ v, c (s.entry pid v))
    {q : List Index} {j : Index} (hq : q.length = 3) : c (leaf s.mach.mem (root p) q j) := by
  match q, hq with
  | [a, b, d], _ => exact entry_eq hp (a, b, d, j) ▸ h (a, b, d, j)

theorem Spaces.pid_eq (h : Spaces lay w s) {pid' : Nat} {p' : Mmap.Pcb} (hp : s.procs[pid]? = some p)
    (hp' : s.procs[pid']? = some p') (hroot : root p = root p') : pid = pid' := by
  have hlt : pid < (s.procs.map root).length := by
    rw [length_map]
    exact (List.getElem?_eq_some_iff.mp hp).1
  refine (getElem?_inj hlt h.distinct).mp ?_
  rw [getElem?_map, getElem?_map, hp, hp', map_some, map_some, hroot]

theorem Spaces.start (hphys : lay.kernelEnd ≤ 2 ^ 52) (hw : Pmm.Stock lay w) (hlive : w.pmm.live)
    (mem : Nat → Index → UInt64) : Spaces lay w (.start w.pmm mem) := by
  have hroots : ∀ {x}, ¬(System.start w.pmm mem).roots x := fun ⟨_, hp, _⟩ => not_mem_nil hp
  refine ⟨⟨hphys, rfl, hw, hlive, fun hr => absurd hr hroots, ?_, fun hr => absurd hr hroots⟩, nodup_nil⟩
  rintro t ⟨r, p, hr, -⟩
  exact absurd hr hroots

end

/-- The allocator after sixteen frames are added. -/
def sixteen : Option World :=
  Reach.run (World.step Pmm.highKernel) (fun w c => w.proper c && w.countable c) .boot
    [.addRegion (16 * Pmm.PAGE_SIZE) (16 * Pmm.PAGE_SIZE) 0]

def someone : Mmap.Pcb := ⟨[], 0, 0, 0, 0, ⟨fun _ => (Mmap.RLIM_INFINITY, Mmap.RLIM_INFINITY)⟩⟩

theorem sixteen_live : sixteen.map (fun w => w.pmm.live) = some true := by
  decide +kernel

theorem Spaces.sixteen {w : World} (hw : sixteen = some w) (mem : Nat → Index → UInt64) :
    Spaces Pmm.highKernel w (.start w.pmm mem) := by
  have hlive := sixteen_live
  rw [hw, map_some, some.injEq] at hlive
  exact .start (by decide) (.reach (Reach.of_run _ .start hw)) hlive mem

end Moxide.Paging
