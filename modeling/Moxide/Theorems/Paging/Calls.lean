import Moxide.Theorems.Paging.Tables

/-! What `sys_munmap` and `sys_mprotect` do to the pages of the address spaces. -/

namespace Moxide.Paging
open Lib List Option
open Pmm (World)

def Fewer (R : Nat → Prop) (r : Nat) (mem mem' : Nat → Index → UInt64) : Prop :=
  ∀ x q j, R x → q.length = 3 → leaf mem' x q j = leaf mem x q j ∨ (x = r ∧ leaf mem' x q j = 0)

def Once (r : Nat) (mem : Nat → Index → UInt64) : Prop :=
  ∀ q q' j j' f, q.length = 3 → q'.length = 3 → Maps (leaf mem r q j) f → Maps (leaf mem r q' j') f → q = q' ∧ j = j'

section
variable {lay : Pmm.Layout} {w : World} {m m' : Machine} {R : Nat → Prop} {node r : Nat} {cr3 va : UInt64} {q : List Index}
  {j : Index} {l : List UInt64} {pa addr length : UInt64} {p : Mmap.Pcb} {res : Int64} {t : Mmap.State Machine}
  {P : List Index → Index → Prop} {prot : UInt32}
variable {mem mem' mem'' : Nat → Index → UInt64}

section
variable (h : Fewer R r mem mem')
include h

theorem Fewer.maps {x f : Nat} (hx : R x) (hq : q.length = 3) (hm : Maps (leaf mem' x q j) f) : Maps (leaf mem x q j) f := by
  rcases h x q j hx hq with hsame | ⟨-, hzero⟩
  · rw [← hsame]
    exact hm
  · rw [hzero] at hm
    exact absurd hm (not_maps_zero f)

theorem Fewer.trans (h' : Fewer R r mem' mem'') : Fewer R r mem mem'' := by
  intro x q j hx hq
  rcases h' x q j hx hq with hsame | hzero
  · rw [hsame]
    exact h x q j hx hq
  · exact .inr hzero

theorem Fewer.once (hr : R r) (honce : Once r mem) : Once r mem' :=
  fun q q' j j' f hq hq' hm hm' => honce q q' j j' f hq hq' (h.maps hr hq hm) (h.maps hr hq' hm')

end

theorem Updated.fewer (h : Updated R r q j 0 mem mem') : Fewer R r mem mem' := by
  intro x q' j' hx hq
  rw [h x q' j' hx hq]
  split
  · rename_i hat
    exact .inr ⟨hat.1, rfl⟩
  · exact .inl rfl

/-! ### `sys_munmap` -/

/-- The frames that a call collects to free: each of them once, and mapped nowhere after. -/
structure Collected (R : Nat → Prop) (r : Nat) (mem mem' : Nat → Index → UInt64) (l : List UInt64) : Prop where
  nodup : (l.map frameOf).Nodup
  addr : ∀ pa ∈ l, pa.toNat = frameOf pa * 4096
  mapped : ∀ pa ∈ l, ∃ q j, q.length = 3 ∧ Maps (leaf mem r q j) (frameOf pa)
  gone : ∀ pa ∈ l, ∀ {x q j}, R x → q.length = 3 → ¬Maps (leaf mem' x q j) (frameOf pa)

section
variable (h : Collected R r mem' mem'' l) (hr : R r) (hfewer : Fewer R r mem mem')
include h hr hfewer

theorem Collected.earlier : Collected R r mem mem'' l := by
  refine { h with mapped := fun pa hpa => ?_ }
  obtain ⟨q, j, hq, hm⟩ := h.mapped pa hpa
  exact ⟨q, j, hq, hfewer.maps hr hq hm⟩

theorem Collected.cons (haddr : pa.toNat = frameOf pa * 4096) (hq : q.length = 3)
    (hmaps : Maps (leaf mem r q j) (frameOf pa)) (hown : ∀ {q j}, q.length = 3 → ¬Maps (leaf mem' r q j) (frameOf pa))
    (hgone : ∀ {x q j}, R x → q.length = 3 → ¬Maps (leaf mem'' x q j) (frameOf pa)) : Collected R r mem mem'' (pa :: l) := by
  have hearlier := h.earlier hr hfewer
  refine ⟨?_, forall_mem_cons.mpr ⟨haddr, h.addr⟩, forall_mem_cons.mpr ⟨⟨q, j, hq, hmaps⟩, hearlier.mapped⟩,
    forall_mem_cons.mpr ⟨hgone, h.gone⟩⟩
  rw [map_cons, nodup_cons]
  refine ⟨fun hmem => ?_, h.nodup⟩
  obtain ⟨pa', hpa', hframe⟩ := List.mem_map.mp hmem
  obtain ⟨q', j', hq', hm⟩ := h.mapped pa' hpa'
  exact hown hq' (hframe ▸ hm)

end

theorem virtToPhys_of_fewer (h : Fewer R (cr3.toNat / 4096) m.mem m'.mem) (hr : R (cr3.toNat / 4096))
    (hpa : m'.virtToPhys cr3 va = some pa) : m.virtToPhys cr3 va = some pa := by
  rw [virtToPhys_eq] at hpa ⊢
  rcases h _ (upper va) (index va 12) hr rfl with hsame | ⟨-, hzero⟩
  · unfold pte at hpa ⊢
    rw [← hsame]
    exact hpa
  · rw [pte, hzero] at hpa
    cases hpa

/-- The frames of the pages `pages`, those of physical mappings apart, are mapped by no other address space. -/
def Unshared (R : Nat → Prop) (m : Machine) (cr3 : UInt64) (isPhys : UInt64 → Bool) (pages : List UInt64) : Prop :=
  ∀ va ∈ pages, isPhys va = false → ∀ pa, m.virtToPhys cr3 va = some pa →
    ∀ x q j, R x → x ≠ cr3.toNat / 4096 → q.length = 3 → ¬Maps (leaf m.mem x q j) (frameOf pa)

theorem Tables.unmapPages (node : Nat) (hr : R (cr3.toNat / 4096)) {isPhys : UInt64 → Bool} (pages : List UInt64) :
    ∀ {m}, Tables lay w m R → Once (cr3.toNat / 4096) m.mem → Unshared R m cr3 isPhys pages →
      ∃ m' l, Mmap.unmapPages (memory lay node) cr3 isPhys m pages = (m', l) ∧ Tables lay w m' R ∧
        (∀ g, Table m'.mem R g ↔ Table m.mem R g) ∧ Fewer R (cr3.toNat / 4096) m.mem m'.mem ∧
        Collected R (cr3.toNat / 4096) m.mem m'.mem l := by
  induction pages with
  | nil =>
    intro m h _ _
    exact ⟨m, [], rfl, h, fun _ => Iff.rfl, fun _ _ _ _ _ => .inl rfl, nodup_nil, nofun, nofun, nofun⟩
  | cons va pages ih =>
    intro m h honce halone
    have hphys : (memory lay node).virtToPhys m cr3 va = m.virtToPhys cr3 va := rfl
    rcases h.unmapPage hr va with ⟨hnone, -⟩ | ⟨pa, u, hpa, hu, -, htables, hnode, hpages⟩
    · rw [Mmap.unmapPages, hphys, hnone]
      exact ih h honce fun va hva => halone va (mem_cons_of_mem _ hva)
    have hunmap : (memory lay node).unmapPage m cr3 va = u := congrArg Prod.snd hu
    have hfewer : Fewer R (cr3.toNat / 4096) m.mem u.mem := hpages.fewer
    have halone' : Unshared R u cr3 isPhys pages := fun va' hva' hnot pa' hpa' x q j hx hne hq hm =>
      halone va' (mem_cons_of_mem _ hva') hnot pa' (virtToPhys_of_fewer hfewer hr hpa') x q j hx hne hq
        (hfewer.maps hx hq hm)
    obtain ⟨m', l, heq, htables', hnode', hfewer', hl⟩ := ih htables (hfewer.once hr honce) halone'
    have hcalls : Mmap.unmapPages (memory lay node) cr3 isPhys m (va :: pages) = (m', if isPhys va then l else pa :: l) := by
      rw [Mmap.unmapPages, hphys, hpa]
      rw [hunmap, heq]
    refine ⟨m', _, hcalls, htables', fun g => (hnode' g).trans (hnode g), hfewer.trans hfewer', ?_⟩
    obtain ⟨hmaps, haddr⟩ := virtToPhys_some hpa
    -- the address space had no other entry for the frame
    have hown : ∀ {q j}, q.length = 3 → ¬Maps (leaf u.mem (cr3.toNat / 4096) q j) (frameOf pa) := by
      intro q j hq hm
      obtain ⟨rfl, rfl⟩ := honce q (upper va) j (index va 12) _ hq rfl (hfewer.maps hr hq hm) hmaps
      rw [hpages _ _ _ hr rfl, if_pos ⟨rfl, rfl, rfl⟩] at hm
      exact not_maps_zero _ hm
    cases hisPhys : isPhys va with
    | true => exact hl.earlier hr hfewer
    | false =>
      refine hl.cons hr hfewer haddr rfl hmaps hown fun {x q j} hx hq hm => ?_
      by_cases hxr : x = cr3.toNat / 4096
      · subst hxr
        exact hown hq (hfewer'.maps hx hq hm)
      · exact halone va mem_cons_self hisPhys pa hpa x q j hx hxr hq (hfewer.maps hx hq (hfewer'.maps hx hq hm))

theorem Tables.freePages (l : List UInt64) : ∀ {w m}, Tables lay w m R → (l.map frameOf).Nodup →
    (∀ pa ∈ l, pa.toNat = frameOf pa * 4096 ∧ 0 < w.held (frameOf pa) ∧ ¬Table m.mem R (frameOf pa) ∧
      ∀ {x q j}, R x → q.length = 3 → ¬Maps (leaf m.mem x q j) (frameOf pa)) →
    Mmap.freePages (memory lay node) m l = some m' → ∃ w', Tables lay w' m' R ∧ m'.mem = m.mem := by
  induction l with
  | nil =>
    intro w m h _ _ hm
    cases hm
    exact ⟨w, h, rfl⟩
  | cons pa l ih =>
    intro w m h hnodup hall hm
    obtain ⟨u, hu, hm⟩ := bind_eq_some_iff.mp hm
    obtain ⟨haddr, hheld, htable, hpage⟩ := hall pa mem_cons_self
    obtain ⟨w₁, h₁, hmem, -, hrest, -⟩ := h.freePage haddr hheld htable hpage hu
    rw [map_cons, nodup_cons] at hnodup
    obtain ⟨w', h', hmem'⟩ := ih h₁ hnodup.2 (fun pa' hpa' => by
      obtain ⟨haddr', hheld', htable', hpage'⟩ := hall pa' (mem_cons_of_mem _ hpa')
      rw [hmem, hrest]
      · exact ⟨haddr', hheld', htable', hpage'⟩
      · intro heq
        exact hnodup.1 (heq ▸ List.mem_map_of_mem hpa')) hm
    exact ⟨w', h', hmem'.trans hmem⟩

def inPhysMap (p : Mmap.Pcb) (va : UInt64) : Bool := p.vmas.any fun v => v.contains va && v.isPhysMap

theorem Tables.sysMunmap (h : Tables lay w m R)
    (hr : R (p.userSatp.toNat / 4096)) (honce : Once (p.userSatp.toNat / 4096) m.mem)
    (halone : Unshared R m p.userSatp (inPhysMap p) (Mmap.pagesOf addr (addr + Mmap.pageAlignUp length)))
    (hs : Mmap.sysMunmap (memory lay node) ⟨p, m⟩ addr length = some (res, t)) :
    t.pcb.userSatp = p.userSatp ∧ ∃ w', Tables lay w' t.mem R ∧ Fewer R (p.userSatp.toNat / 4096) m.mem t.mem.mem := by
  have hkeep : ∃ w', Tables lay w' m R ∧ Fewer R (p.userSatp.toNat / 4096) m.mem m.mem := ⟨w, h, fun _ _ _ _ _ => .inl rfl⟩
  unfold Mmap.sysMunmap at hs
  dsimp only at hs
  split at hs
  · cases hs
    exact ⟨rfl, hkeep⟩
  split at hs
  · cases hs
    exact ⟨rfl, hkeep⟩
  obtain ⟨u, l, heq, htables, hnode, hfewer, hl⟩ := Tables.unmapPages node hr _ h honce halone
  unfold inPhysMap at heq
  rw [heq] at hs
  obtain ⟨m', hfree, hs⟩ := map_eq_some_iff.mp hs
  cases hs
  obtain ⟨w', htables', hmem⟩ := htables.freePages l hl.nodup (fun pa hpa => by
    obtain ⟨q, j, hq, hm⟩ := hl.mapped pa hpa
    obtain ⟨hheld, htable⟩ := h.page hr hq hm
    exact ⟨hl.addr pa hpa, hheld, fun ht => htable ((hnode _).mp ht), hl.gone pa hpa⟩) hfree
  refine ⟨rfl, w', htables', ?_⟩
  change Fewer R _ m.mem m'.mem
  rw [hmem]
  exact hfewer

structure Remapped (R : Nat → Prop) (r : Nat) (P : List Index → Index → Prop) (mem mem' : Nat → Index → UInt64) : Prop where
  maps : ∀ {x q j f}, R x → q.length = 3 → (Maps (leaf mem' x q j) f ↔ Maps (leaf mem x q j) f)
  write : ∀ {x q j}, R x → q.length = 3 → leaf mem' x q j &&& PTE_WRITABLE ≠ 0 →
    leaf mem x q j &&& PTE_WRITABLE ≠ 0 ∨ (x = r ∧ P q j)

theorem Remapped.refl : Remapped R r P mem mem := ⟨fun _ _ => Iff.rfl, fun _ _ => .inl⟩

theorem Remapped.trans (h : Remapped R r P mem mem') (h' : Remapped R r P mem' mem'') : Remapped R r P mem mem'' := by
  refine ⟨fun hx hq => (h'.maps hx hq).trans (h.maps hx hq), fun hx hq hw => ?_⟩
  rcases h'.write hx hq hw with hw | hat
  · exact h.write hx hq hw
  · exact .inr hat

def Opened (prot : UInt32) (pages : List UInt64) (q : List Index) (j : Index) : Prop :=
  prot &&& Mmap.PROT_WRITE ≠ 0 ∧ ∃ va ∈ pages, q = upper va ∧ j = index va 12

theorem Tables.remapPages (hr : R (cr3.toNat / 4096)) {all : List UInt64} (pages : List UInt64) :
    ∀ {w m}, pages ⊆ all → Tables lay w m R →
      Mmap.remapPages (memory lay node) cr3 (Mmap.protToFlags prot) m pages = some m' →
      ∃ w', Tables lay w' m' R ∧ Remapped R (cr3.toNat / 4096) (Opened prot all) m.mem m'.mem := by
  induction pages with
  | nil =>
    intro w m _ h hm
    cases hm
    exact ⟨w, h, .refl⟩
  | cons va pages ih =>
    intro w m hsub h hm
    obtain ⟨hva, hsub⟩ := cons_subset.mp hsub
    have hphys : (memory lay node).virtToPhys m cr3 va = m.virtToPhys cr3 va := rfl
    rw [Mmap.remapPages, hphys] at hm
    cases hpa : m.virtToPhys cr3 va with
    | none =>
      rw [hpa] at hm
      exact ih hsub h hm
    | some pa =>
      rw [hpa] at hm
      obtain ⟨u, hu, hm⟩ := bind_eq_some_iff.mp hm
      obtain ⟨hmaps, -⟩ := virtToPhys_some hpa
      obtain ⟨hheld, htable⟩ := h.page hr rfl hmaps
      obtain ⟨w₁, h₁, -, hpages⟩ := h.mapPage hr hheld htable hu
      obtain ⟨w', h', hrest⟩ := ih hsub h₁ hm
      refine ⟨w', h', Remapped.trans ⟨fun {x q j f} hx hq => ?_, fun {x q j} hx hq hw => ?_⟩ hrest⟩
      · rw [hpages x q j hx hq]
        split
        · rename_i hat
          obtain ⟨rfl, rfl, rfl⟩ := hat
          have hentry : Maps (leaf m.mem (cr3.toNat / 4096) (upper va) (index va 12)) f ↔ frameOf pa = f := by
            refine ⟨fun hm => hmaps.2.symm.trans hm.2, fun hf => hf ▸ hmaps⟩
          rw [hentry]
          exact ⟨fun hm => by rw [← hm.2, frameOf_pageEntry], fun hf => hf ▸ pageEntry_maps pa _⟩
        · exact Iff.rfl
      · rw [hpages x q j hx hq] at hw
        split at hw
        · rename_i hat
          refine .inr ⟨hat.1, fun hread => hw ?_, va, hva, hat.2⟩
          rw [pageEntry_writable]
          exact (pteFlags_writable prot).mpr hread
        · exact .inl hw

theorem Tables.sysMprotect (h : Tables lay w m R) (hr : R (p.userSatp.toNat / 4096))
    (hs : Mmap.sysMprotect (memory lay node) ⟨p, m⟩ addr length prot = some (res, t)) :
    t.pcb.userSatp = p.userSatp ∧ ∃ w', Tables lay w' t.mem R ∧ Remapped R (p.userSatp.toNat / 4096)
      (Opened prot (Mmap.pagesOf addr (addr + Mmap.pageAlignUp length))) m.mem t.mem.mem := by
  unfold Mmap.sysMprotect at hs
  split at hs
  · cases hs
    exact ⟨rfl, w, h, .refl⟩
  split at hs
  · cases hs
    exact ⟨rfl, w, h, .refl⟩
  split at hs
  · cases hs
    exact ⟨rfl, w, h, .refl⟩
  obtain ⟨m', hm, hs⟩ := map_eq_some_iff.mp hs
  cases hs
  obtain ⟨w', h', hre⟩ := Tables.remapPages hr _ (List.Subset.refl _) h hm
  exact ⟨rfl, w', h', hre⟩

end

end Moxide.Paging
