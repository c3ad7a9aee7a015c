import Moxide.Theorems.Paging.Calls
import Moxide.Theorems.Paging.Spaces

/-! Isolation of processes that share frames after a fork. -/

namespace Moxide.Paging
open Lib List Option
open Pmm (World)

def System.MappedOnce (s : System) : Prop :=
  ∀ pid pid' v v' f, Maps (s.entry pid v) f → Maps (s.entry pid' v') f → pid = pid' ∧ v = v'

def System.Isolated (s : System) : Prop :=
  ∀ pid pid' v v' f, pid ≠ pid' → Maps (s.entry pid v) f → Maps (s.entry pid' v') f →
    s.entry pid v &&& PTE_WRITABLE = 0 ∧ s.entry pid' v' &&& PTE_WRITABLE = 0

def System.StoresUnseen (s : System) : Prop :=
  ∀ (pid pid' : Nat) (p p' : Mmap.Pcb), pid ≠ pid' → s.procs[pid]? = some p → s.procs[pid']? = some p' → ∀ va i x va' j,
    (s.mach.store p.userSatp va i x).load p'.userSatp va' j = s.mach.load p'.userSatp va' j

def System.Alone (s : System) (pid f : Nat) : Prop := ∀ pid' v, pid' ≠ pid → ¬Maps (s.entry pid' v) f

/-- What the calls on a range of pages are confined to: no frame that another process maps is made writable or freed. -/
def System.Private (s : System) : Event → Prop
  | .munmap _ pid addr length =>
    ∀ p ∈ s.procs[pid]?, ∀ va ∈ Mmap.pagesOf addr (addr + Mmap.pageAlignUp length), inPhysMap p va = false →
      ∀ pa ∈ s.mach.virtToPhys p.userSatp va, s.Alone pid (frameOf pa)
  | .mprotect _ pid addr length prot =>
    prot &&& Mmap.PROT_WRITE ≠ 0 →
      ∀ p ∈ s.procs[pid]?, ∀ va ∈ Mmap.pagesOf addr (addr + Mmap.pageAlignUp length),
        ∀ pa ∈ s.mach.virtToPhys p.userSatp va, s.Alone pid (frameOf pa)
  | .unmap _ _ => False
  | .spawn _ _ | .map _ _ _ _ | .fork _ _ | .fault _ _ _ _ | .store _ _ _ _ => True

/-- A process maps a frame once at most, and cannot write to one that another process maps. -/
structure Apart (R : Nat → Prop) (mem : Nat → Index → UInt64) : Prop where
  once : ∀ {r}, R r → Once r mem
  shared : ∀ {r r' q q' j j' f}, R r → R r' → r ≠ r' → q.length = 3 → q'.length = 3 → Maps (leaf mem r q j) f →
    Maps (leaf mem r' q' j') f → leaf mem r q j &&& PTE_WRITABLE = 0

section
variable {lay : Pmm.Layout} {w w' : World} {s t : System} {m : Machine} {R R' : Nat → Prop} {r f node pid : Nat}
    {p : Mmap.Pcb}
variable {mem mem' : Nat → Index → UInt64}

/-! ### Pages -/

section
variable (h : Apart R mem)
include h

theorem Apart.fewer
    (hsub : ∀ {x q j f}, R' x → q.length = 3 → Maps (leaf mem' x q j) f → R x ∧ leaf mem' x q j = leaf mem x q j) :
    Apart R' mem' := by
  have hmaps : ∀ {x q j f}, R' x → q.length = 3 → Maps (leaf mem' x q j) f → Maps (leaf mem x q j) f := fun hx hq hm =>
    (hsub hx hq hm).2 ▸ hm
  refine ⟨fun hr q q' j j' f hq hq' hm hm' => ?_, fun hr hr' hne hq hq' hm hm' => ?_⟩
  · exact h.once (hsub hr hq hm).1 q q' j j' f hq hq' (hmaps hr hq hm) (hmaps hr hq' hm')
  · rw [(hsub hr hq hm).2]
    exact h.shared (hsub hr hq hm).1 (hsub hr' hq' hm').1 hne hq hq' (hmaps hr hq hm) (hmaps hr' hq' hm')

theorem Apart.same (hsame : Same R mem mem') : Apart R mem' :=
  h.fewer fun hx hq _ => ⟨hx, hsame _ _ _ hx hq⟩

theorem Apart.cleared (hfewer : Fewer R r mem mem') : Apart R mem' := by
  refine h.fewer fun {x q j f} hx hq hm => ⟨hx, ?_⟩
  rcases hfewer x q j hx hq with hsame | ⟨-, hzero⟩
  · exact hsame
  · rw [hzero] at hm
    exact absurd hm (not_maps_zero f)

theorem Apart.insert {r₀ : Nat} {q₀ : List Index} {j₀ : Index} {e : UInt64} (he : Maps e f)
    (hpages : Updated R r₀ q₀ j₀ e mem mem') (hfree : ∀ {x q j}, R x → q.length = 3 → ¬Maps (leaf mem x q j) f) :
    Apart R mem' := by
  refine ⟨fun hr q q' j j' g hq hq' hm hm' => ?_, fun hr hr' hne hq hq' hm hm' => ?_⟩
  · rcases hpages.maps he hfree hr hq hm with ⟨⟨-, rfl, rfl⟩, rfl⟩ | ⟨hg, -, hm⟩
    · rcases hpages.maps he hfree hr hq' hm' with ⟨⟨-, rfl, rfl⟩, -⟩ | ⟨hg, -⟩
      · exact ⟨rfl, rfl⟩
      · exact absurd rfl hg
    · rcases hpages.maps he hfree hr hq' hm' with ⟨-, rfl⟩ | ⟨-, -, hm'⟩
      · exact absurd rfl hg
      · exact h.once hr q q' j j' g hq hq' hm hm'
  · rcases hpages.maps he hfree hr hq hm with ⟨⟨rfl, -, -⟩, rfl⟩ | ⟨hg, hsame, hm⟩
    · rcases hpages.maps he hfree hr' hq' hm' with ⟨⟨rfl, -, -⟩, -⟩ | ⟨hg, -⟩
      · exact absurd rfl hne
      · exact absurd rfl hg
    rcases hpages.maps he hfree hr' hq' hm' with ⟨-, rfl⟩ | ⟨-, -, hm'⟩
    · exact absurd rfl hg
    · rw [hsame]
      exact h.shared hr hr' hne hq hq' hm hm'

theorem Apart.clone {r₀ c : Nat} (hr₀ : R r₀) (hc : ¬R c)
    (hold : ∀ {x q j}, R x → q.length = 3 → leaf mem' x q j =
      if x = r₀ ∧ leaf mem x q j &&& PTE_PRESENT ≠ 0 then cowEntry (leaf mem x q j) else leaf mem x q j)
    (hchild : ∀ {q j}, q.length = 3 → leaf mem' c q j =
      if leaf mem r₀ q j &&& PTE_PRESENT ≠ 0 then cowEntry (leaf mem r₀ q j) else 0) :
    Apart (fun x => R x ∨ x = c) mem' := by
  -- an entry comes from that of the same address space or of the parent, and only one that is as before may be writable
  have horigin : ∀ {x q j g}, R x ∨ x = c → q.length = 3 → Maps (leaf mem' x q j) g →
      R (if x = c then r₀ else x) ∧ Maps (leaf mem (if x = c then r₀ else x) q j) g ∧
        (leaf mem' x q j &&& PTE_WRITABLE = 0 ∨ (x ≠ r₀ ∧ x ≠ c ∧ leaf mem' x q j = leaf mem x q j)) := by
    rintro x q j g (hx | rfl) hq hm
    · have hxc : x ≠ c := fun heq => hc (heq ▸ hx)
      rw [if_neg hxc]
      rw [hold hx hq] at hm ⊢
      split at hm
      · rename_i hat
        rw [if_pos hat]
        exact ⟨hx, cowEntry_maps.mp hm, .inl (cowEntry_writable _)⟩
      · rename_i hat
        rw [if_neg hat]
        exact ⟨hx, hm, .inr ⟨fun heq => hat ⟨heq, hm.1⟩, hxc, rfl⟩⟩
    · rw [if_pos rfl]
      rw [hchild hq] at hm ⊢
      split at hm
      · rename_i hpresent
        rw [if_pos hpresent]
        exact ⟨hr₀, cowEntry_maps.mp hm, .inl (cowEntry_writable _)⟩
      · exact absurd hm (not_maps_zero g)
  refine ⟨fun {x} hx q q' j j' g hq hq' hm hm' => ?_, fun {x x' q q' j j' g} hx hx' hne hq hq' hm hm' => ?_⟩
  · obtain ⟨hR, hmaps, -⟩ := horigin hx hq hm
    exact h.once hR q q' j j' g hq hq' hmaps (horigin hx hq' hm').2.1
  · obtain ⟨hR, hmaps, hro | ⟨hxr, hxc, hsame⟩⟩ := horigin hx hq hm
    · exact hro
    · obtain ⟨hR', hmaps', -⟩ := horigin hx' hq' hm'
      rw [if_neg hxc] at hR hmaps
      rw [hsame]
      refine h.shared hR hR' (fun heq => ?_) hq hq' hmaps hmaps'
      split at heq
      · exact hxr heq
      · exact hne heq

theorem Apart.remap {P : List Index → Index → Prop} (hre : Remapped R r P mem mem')
    (halone : ∀ {q j f}, q.length = 3 → P q j → Maps (leaf mem r q j) f → ∀ {x q' j'}, R x → x ≠ r → q'.length = 3 →
      ¬Maps (leaf mem x q' j') f) :
    Apart R mem' := by
  refine ⟨fun hr q q' j j' f hq hq' hm hm' => ?_, fun {x x' q q' j j' f} hx hx' hne hq hq' hm hm' => ?_⟩
  · exact h.once hr q q' j j' f hq hq' ((hre.maps hr hq).mp hm) ((hre.maps hr hq').mp hm')
  · rw [hre.maps hx hq] at hm
    rw [hre.maps hx' hq'] at hm'
    by_contra hw
    rcases hre.write hx hq hw with hold | ⟨rfl, hP⟩
    · exact hold (h.shared hx hx' hne hq hq' hm hm')
    · exact halone hq hP hm hx' hne.symm hq' hm'

end

theorem System.Alone.leaf (h : s.Alone pid f) (hp : s.procs[pid]? = some p) {x : Nat} {q : List Index} {j : Index}
    (hx : s.roots x) (hne : x ≠ root p) (hq : q.length = 3) : ¬Maps (leaf s.mach.mem x q j) f := by
  obtain ⟨p', hmem, rfl⟩ := hx
  obtain ⟨pid', hp'⟩ := getElem?_of_mem hmem
  refine leaf_of_entry (c := fun e => ¬Maps e f) hp' (fun v => h pid' v ?_) hq
  rintro rfl
  rw [hp] at hp'
  cases hp'
  exact hne rfl

section
variable (h : Apart s.roots s.mach.mem)
include h

variable (hsp : Spaces lay w s)
include hsp

theorem Apart.step {e : Event} (hc : s.Private e) (hs : s.step lay e = some t) :
    ∃ w', Spaces lay w' t ∧ Apart t.roots t.mach.mem := by
  cases e with
  | spawn node pcb =>
    obtain ⟨w', r, hj, hold, hnew⟩ := hsp.spawn hs
    refine ⟨w', hj.spaces, h.fewer fun {x q j f} hx hq hm => ?_⟩
    rw [hj.roots] at hx
    rcases hx with hx | rfl
    · exact ⟨hx, hold x q j hx hq⟩
    · rw [hnew hq] at hm
      exact absurd hm (not_maps_zero f)
  | map node pid va flags =>
    obtain ⟨p, hp, -⟩ := bind_eq_some_iff.mp hs
    rcases hsp.map hp hs with ⟨w', hsp', hprocs, hmem, -⟩ | ⟨f, m, w', -, -, hm⟩
    · rw [roots_eq (t := t) (s := s) (by rw [hprocs]), hmem]
      exact ⟨w', hsp', h⟩
    · rw [roots_eq (t := t) (s := s) (by rw [hm.procs])]
      exact ⟨w', hm.spaces, h.insert hm.maps hm.pages (hsp.tables.free_frame hm.free).2⟩
  | fork node pid =>
    obtain ⟨p, hp, -⟩ := bind_eq_some_iff.mp hs
    obtain ⟨w', r, hj, hold, hchild⟩ := hsp.fork hp hs
    rw [hj.roots]
    exact ⟨w', hj.spaces, h.clone (roots_of_mem hp) hj.new hold hchild⟩
  | fault node pid va errorCode =>
    obtain ⟨p, hp, -⟩ := bind_eq_some_iff.mp hs
    rw [fault_eq hp hs, setMach_self]
    exact ⟨w, hsp, h⟩
  | unmap pid va => exact hc.elim
  | store pid va i x =>
    obtain ⟨p, hp, -⟩ := map_eq_some_iff.mp hs
    obtain ⟨hsp', heq, hsame⟩ := hsp.store hp hs
    have hroots : t.roots = s.roots := by rw [heq, roots_setMach]
    rw [hroots]
    exact ⟨w, hsp', h.same hsame⟩
  | munmap node pid addr length =>
    obtain ⟨p, hp, hs⟩ := bind_eq_some_iff.mp hs
    obtain ⟨⟨res, u⟩, hu, rfl⟩ := map_eq_some_iff.mp hs
    have halone : Unshared s.roots s.mach p.userSatp (inPhysMap p) (Mmap.pagesOf addr (addr + Mmap.pageAlignUp length)) :=
      fun va hva hnot pa hpa x q j hx hne hq => (hc p hp va hva hnot pa hpa).leaf hp hx hne hq
    obtain ⟨hsatp, w', htables, hfewer⟩ := hsp.tables.sysMunmap (roots_of_mem hp) (h.once (roots_of_mem hp)) halone hu
    obtain ⟨hsp', hroots⟩ := hsp.set hp hsatp htables
    refine ⟨w', hsp', ?_⟩
    rw [hroots]
    exact h.cleared hfewer
  | mprotect node pid addr length prot =>
    obtain ⟨p, hp, hs⟩ := bind_eq_some_iff.mp hs
    obtain ⟨⟨res, u⟩, hu, rfl⟩ := map_eq_some_iff.mp hs
    obtain ⟨hsatp, w', htables, hre⟩ := hsp.tables.sysMprotect (roots_of_mem hp) hu
    obtain ⟨hsp', hroots⟩ := hsp.set hp hsatp htables
    refine ⟨w', hsp', ?_⟩
    rw [hroots]
    refine h.remap hre fun {q j f} hq hopened hm x q' j' hx hne hq' => ?_
    obtain ⟨hwrite, va, hva, rfl, rfl⟩ := hopened
    have hpresent : pte s.mach p.userSatp va &&& PTE_PRESENT ≠ 0 := hm.1
    have hpa : s.mach.virtToPhys p.userSatp va = some (pte s.mach p.userSatp va &&& ADDR_MASK) := by
      rw [virtToPhys_eq, if_neg hpresent]
    have hframe := (virtToPhys_some hpa).1.2
    rw [← hm.2]
    exact (hframe ▸ hc hwrite p hp va hva _ hpa).leaf hp hx hne hq'

theorem Apart.isolated : s.Isolated := by
  have hone : ∀ {pid pid' v v' f}, pid ≠ pid' → Maps (s.entry pid v) f → Maps (s.entry pid' v') f →
      s.entry pid v &&& PTE_WRITABLE = 0 := by
    intro pid pid' v v' f hne hm hm'
    obtain ⟨p, hp, he⟩ := entry_leaf hm
    obtain ⟨p', hp', he'⟩ := entry_leaf hm'
    rw [he] at hm ⊢
    rw [he'] at hm'
    exact h.shared (roots_of_mem hp) (roots_of_mem hp') (fun heq => hne (hsp.pid_eq hp hp' heq)) rfl rfl hm hm'
  intro pid pid' v v' f hne hm hm'
  exact ⟨hone hne hm hm', hone hne.symm hm' hm⟩

theorem Apart.storesUnseen : s.StoresUnseen := by
  intro pid pid' p p' hne hp hp' va i x va' j
  have hr := roots_of_mem hp
  have hr' := roots_of_mem hp'
  have hpte : pte (s.mach.store p.userSatp va i x) p'.userSatp va' = pte s.mach p'.userSatp va' :=
    (hsp.tables.store hr i x).2 _ _ _ hr' rfl
  unfold Machine.load
  rw [virtToPhys_eq, hpte, ← virtToPhys_eq]
  cases hpa : s.mach.virtToPhys p'.userSatp va' with
  | none => rfl
  | some pa =>
    obtain ⟨hmaps', haddr⟩ := virtToPhys_some hpa
    have hdiv : pa.toNat / 4096 = frameOf pa := by rw [haddr, Nat.mul_div_cancel _ (by decide)]
    rw [map_some, map_some, hdiv, store_eq]
    split
    · rfl
    rename_i hok
    rw [Machine.set_mem, Radix.set_of_ne_node]
    intro heq
    have hmaps : Maps (pte s.mach p.userSatp va) (frameOf pa) := ⟨fun hzero => hok (.inl hzero), heq.symm⟩
    exact hok (.inr (h.shared hr hr' (fun hroot => hne (hsp.pid_eq hp hp' hroot)) rfl rfl hmaps hmaps'))

end

theorem Apart.start (h : s.MappedOnce) : Apart s.roots s.mach.mem := by
  have hone : ∀ {r r' q q' j j' f}, s.roots r → s.roots r' → q.length = 3 → q'.length = 3 → Maps (leaf s.mach.mem r q j) f →
      Maps (leaf s.mach.mem r' q' j') f → r = r' ∧ q = q' ∧ j = j' := by
    rintro r r' q q' j j' f ⟨p, hmem, rfl⟩ ⟨p', hmem', rfl⟩ hq hq' hm hm'
    obtain ⟨pid, hp⟩ := getElem?_of_mem hmem
    obtain ⟨pid', hp'⟩ := getElem?_of_mem hmem'
    match q, q', hq, hq' with
    | [a, b, c], [a', b', c'], _, _ =>
      have hsame := h pid pid' (a, b, c, j) (a', b', c', j') f (entry_eq hp _ ▸ hm) (entry_eq hp' _ ▸ hm')
      obtain ⟨rfl, hv⟩ := hsame
      rw [hp] at hp'
      cases hp'
      cases hv
      exact ⟨rfl, rfl, rfl⟩
  exact ⟨fun hr q q' j j' f hq hq' hm hm' => (hone hr hr hq hq' hm hm').2,
    fun hr hr' hne hq hq' hm hm' => absurd (hone hr hr' hq hq' hm hm').1 hne⟩

/-- In runs in which no call makes writable or frees a frame that another process maps, processes are isolated. -/
theorem forks_isolated {lay : Pmm.Layout} {w : World} {s₀ s : System} (hsp : Spaces lay w s₀) (hone : s₀.MappedOnce)
    (hr : Reach (fun s e t => s.step lay e = some t) System.Private s₀ s) : s.Isolated ∧ s.StoresUnseen := by
  have hinv : ∃ w, Spaces lay w s ∧ Apart s.roots s.mach.mem :=
    hr.invariant (I := fun s => ∃ w, Spaces lay w s ∧ Apart s.roots s.mach.mem) ⟨w, hsp, .start hone⟩
      fun s e t ⟨w, hsp, h⟩ hok hs => h.step hsp hok hs
  obtain ⟨w, hsp, h⟩ := hinv
  exact ⟨h.isolated hsp, h.storesUnseen hsp⟩

end

/-! ### Runs from sixteen frames -/

def PROT_RW : UInt32 := Mmap.PROT_READ ||| Mmap.PROT_WRITE

/-- Calls that free frames or make them writable are made while there is one process. -/
def System.lonely (s : System) : Event → Bool
  | .munmap _ _ _ _ => s.procs.length = 1
  | .mprotect _ _ _ _ prot => prot &&& Mmap.PROT_WRITE = 0 ∨ s.procs.length = 1
  | .unmap _ _ => false
  | .spawn _ _ | .map _ _ _ _ | .fork _ _ | .fault _ _ _ _ | .store _ _ _ _ => true

theorem System.alone_of_length {s : System} {pid f : Nat} {p : Mmap.Pcb} (h : s.procs.length = 1)
    (hp : s.procs[pid]? = some p) : s.Alone pid f := by
  intro pid' v hne hm
  obtain ⟨p', hp', -⟩ := entry_leaf hm
  have hlt := (List.getElem?_eq_some_iff.mp hp).1
  have hlt' := (List.getElem?_eq_some_iff.mp hp').1
  omega

theorem System.private_of_lonely {s : System} {e : Event} (h : s.lonely e) : s.Private e := by
  cases e with
  | munmap node pid addr length => exact fun p hp _ _ _ _ _ => alone_of_length (of_decide_eq_true h) hp
  | mprotect node pid addr length prot =>
    intro hwrite p hp _ _ _ _
    exact alone_of_length ((of_decide_eq_true h).resolve_left hwrite) hp
  | unmap pid va => cases h
  | spawn node pcb => trivial
  | map node pid va flags => trivial
  | fork node pid => trivial
  | fault node pid va errorCode => trivial
  | store pid va i x => trivial

/-- A process maps two pages, protects one, unmaps the other and forks; the child protects its page and stores to it. -/
def quietEvents : List Event :=
  [.spawn 0 someone, .map 0 0 0x400000 (PTE_WRITABLE ||| PTE_USER), .map 0 0 0x401000 (PTE_WRITABLE ||| PTE_USER),
    .mprotect 0 0 0x400000 4096 PROT_RW, .munmap 0 0 0x401000 4096, .fork 0 0, .mprotect 0 1 0x400000 4096 Mmap.PROT_READ,
    .fault 0 1 0x400000 7, .store 1 0x400000 3 7]

def quiet (w : World) : Option System :=
  Reach.run (System.step Pmm.highKernel) System.lonely (.start w.pmm fun _ _ => 0) quietEvents

set_option maxRecDepth 100000 in
theorem quiet_frame : (sixteen.bind quiet).map (fun s =>
    (decide (Maps (s.entry 0 (0, 0, 2, 0)) 30), decide (Maps (s.entry 1 (0, 0, 2, 0)) 30))) = some (true, true) := by
  decide +kernel

theorem mappedOnce_start (pmm : Pmm.State) (mem : Nat → Index → UInt64) : (System.start pmm mem).MappedOnce :=
  fun _ _ _ _ f hm => absurd hm (not_maps_zero f)

theorem forks_isolated_quiet : ∃ w s, sixteen = some w ∧ quiet w = some s ∧ Maps (s.entry 0 (0, 0, 2, 0)) 30 ∧
    Maps (s.entry 1 (0, 0, 2, 0)) 30 ∧ s.entry 0 (0, 0, 2, 0) &&& PTE_WRITABLE = 0 ∧ s.StoresUnseen := by
  obtain ⟨s, hs, hframe⟩ := map_eq_some_iff.mp quiet_frame
  obtain ⟨w, hw, hs⟩ := bind_eq_some_iff.mp hs
  simp only [Prod.mk.injEq, decide_eq_true_eq] at hframe
  obtain ⟨hparent, hchild⟩ := hframe
  obtain ⟨hiso, hunseen⟩ := forks_isolated (.sixteen hw _) (mappedOnce_start _ _)
    ((Reach.of_run quietEvents .start hs).mono fun s e => System.private_of_lonely)
  exact ⟨w, s, hw, hs, hparent, hchild, (hiso 0 1 _ _ 30 (by decide) hparent hchild).1, hunseen⟩

def openEvents : List Event :=
  [.spawn 0 someone, .map 0 0 0x400000 (PTE_WRITABLE ||| PTE_USER), .fork 0 0, .mprotect 0 0 0x400000 4096 PROT_RW]

def after (events : List Event) (w : World) : Option System :=
  Reach.run (System.step Pmm.highKernel) (fun _ _ => true) (.start w.pmm fun _ _ => 0) events

def System.leaks (s : System) : Bool :=
  Maps (s.entry 0 (0, 0, 2, 0)) 30 ∧ Maps (s.entry 1 (0, 0, 2, 0)) 30 ∧ s.entry 0 (0, 0, 2, 0) &&& PTE_WRITABLE ≠ 0

theorem System.not_isolated {s : System} (h : s.leaks) : ¬s.Isolated := by
  obtain ⟨hparent, hchild, hwrite⟩ := of_decide_eq_true h
  exact fun hiso => hwrite (hiso 0 1 _ _ 30 (by decide) hparent hchild).1

set_option maxRecDepth 100000 in
theorem leaks_after : (sixteen.bind (after openEvents)).map System.leaks = some true := by
  decide +kernel

def Leak (events : List Event) : Prop :=
  ∃ (w : World) (s : System), Spaces Pmm.highKernel w (.start w.pmm fun _ _ => 0) ∧
    (System.start w.pmm fun _ _ => 0).MappedOnce ∧ after events w = some s ∧
    Reach (fun s e t => s.step Pmm.highKernel e = some t) (fun _ _ => True) (.start w.pmm fun _ _ => 0) s ∧ ¬s.Isolated

theorem leak_of_after {events : List Event} (h : (sixteen.bind (after events)).map System.leaks = some true) :
    Leak events := by
  obtain ⟨s, hs, hleaks⟩ := map_eq_some_iff.mp h
  obtain ⟨w, hw, hs⟩ := bind_eq_some_iff.mp hs
  exact ⟨w, s, .sixteen hw _, mappedOnce_start _ _, hs,
    (Reach.of_run events .start hs).mono fun _ _ _ => trivial, System.not_isolated hleaks⟩

/-- `sys_mprotect` makes a shared frame writable. -/
theorem mprotect_opens : Leak openEvents := leak_of_after leaks_after

end Moxide.Paging
