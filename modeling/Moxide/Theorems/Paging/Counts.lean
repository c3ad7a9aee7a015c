import Moxide.Theorems.Paging.Spaces

/-! The counters of the frames of processes against the entries that map them. The clone takes no reference for the entries
    that it copies. -/

namespace Moxide.Paging
open Lib List Option
open Pmm (World)

def System.mappers (s : System) (f : Nat) : Finset (Nat × Vpn) :=
  (Finset.range s.procs.length ×ˢ Finset.univ).filter fun x => Maps (s.entry x.1 x.2) f

/-- The steps that the counters are about: pages are mapped where there are none, each to a new frame that is counted. -/
def System.counting (lay : Pmm.Layout) (s : System) : Event → Bool
  | .map node pid va _ =>
    (∀ p ∈ s.procs[pid]?, s.mach.virtToPhys p.userSatp va = none) ∧
      ∀ f ∈ (s.mach.allocPage lay node).1, ((s.mach.allocPage lay node).2.pmm.info f).refcount = 1
  | .spawn _ _ | .fork _ _ | .fault _ _ _ _ | .unmap _ _ | .store _ _ _ _ => true
  | .munmap _ _ _ _ | .mprotect _ _ _ _ _ => false

def System.Bare (s : System) : Event → Prop
  | .fork _ pid => ∀ v, s.entry pid v &&& PTE_PRESENT = 0
  | _ => True

structure Single (w : World) (s : System) : Prop where
  once : ∀ {r r' p p' i i' f}, s.roots r → s.roots r' → p.length = 3 → p'.length = 3 → Maps (leaf s.mach.mem r p i) f →
    Maps (leaf s.mach.mem r' p' i') f → r = r' ∧ p = p' ∧ i = i'
  page : ∀ {r p i f}, s.roots r → p.length = 3 → Maps (leaf s.mach.mem r p i) f → s.user f = true ∧ w.held f = 1
  user : ∀ {f}, s.user f = true → w.added f = true ∧
    (w.held f ≠ 0 → ∃ r p i, s.roots r ∧ p.length = 3 ∧ Maps (leaf s.mach.mem r p i) f)

section
variable {lay : Pmm.Layout} {w w' : World} {s t : System} {node pid f : Nat} {p : Mmap.Pcb} {va flags : UInt64}

theorem Spaces.refcount (h : Spaces lay w s) (hadd : w.added f) : (s.mach.pmm.info f).refcount.toNat = w.held f := by
  rw [← h.tables.pmm]
  exact h.tables.stock.counted.count hadd

theorem Spaces.refcount_eq_zero (h : Spaces lay w s) (hadd : w.added f) :
    (s.mach.pmm.info f).refcount = 0 ↔ w.held f = 0 := by
  rw [← h.refcount hadd]
  exact UInt32.toNat_inj.symm

section
variable (h : Single w s)
include h

section
variable (hsp : Spaces lay w s)
include hsp

theorem Single.user_kept {r : Nat} {q : List Index} {i : Index} {m : Machine}
    (hr : s.roots r) (hq : q.length = 3) (hmaps : Maps (leaf s.mach.mem r q i) f) : (s.setMach m).user f := by
  obtain ⟨huser, hone⟩ := h.page hr hq hmaps
  refine user_setMach.mpr ⟨huser, .inl fun hzero => ?_⟩
  rw [(hsp.refcount_eq_zero (h.user huser).1).mp hzero] at hone
  cases hone

theorem Single.user_before (hsp' : Spaces lay w' t) (hadded : w'.added = w.added)
    (hf : (s.setMach t.mach).user f) : w'.added f ∧
    (w'.held f ≠ 0 → ∃ r p i, s.roots r ∧ p.length = 3 ∧ Maps (leaf s.mach.mem r p i) f) := by
  obtain ⟨huser, hcount⟩ := user_setMach.mp hf
  obtain ⟨hadd, hpage⟩ := h.user huser
  have hadd' : w'.added f := hadded ▸ hadd
  refine ⟨hadd', fun hheld => hpage fun hzero => ?_⟩
  rcases hcount with hcount | hcount
  · exact hcount ((hsp.refcount_eq_zero hadd).mpr hzero)
  · exact hheld ((hsp'.refcount_eq_zero hadd').mp hcount)

theorem Single.keep (hsp' : Spaces lay w' t) (hroots : ∀ {x}, s.roots x → t.roots x)
    (hpages : ∀ {x q j f}, t.roots x → q.length = 3 →
      (Maps (leaf t.mach.mem x q j) f ↔ s.roots x ∧ Maps (leaf s.mach.mem x q j) f))
    (hadded : w'.added = w.added) (hheld : ∀ {g}, 0 < w.held g → w'.held g = w.held g)
    (huser : t.user = (s.setMach t.mach).user) : Single w' t := by
  refine ⟨fun hr hr' hp hp' hm hm' => ?_, fun {r p i f} hr hp hm => ?_, fun {f} hf => ?_⟩
  · obtain ⟨hr, hm⟩ := (hpages hr hp).mp hm
    obtain ⟨hr', hm'⟩ := (hpages hr' hp').mp hm'
    exact h.once hr hr' hp hp' hm hm'
  · obtain ⟨hr, hm⟩ := (hpages hr hp).mp hm
    have hone := (h.page hr hp hm).2
    rw [huser, hheld (by omega)]
    exact ⟨h.user_kept hsp hr hp hm, hone⟩
  · rw [huser] at hf
    obtain ⟨hadd, hpage⟩ := h.user_before hsp hsp' hadded hf
    refine ⟨hadd, fun hne => ?_⟩
    obtain ⟨r, p, i, hr, hp, hm⟩ := hpage hne
    exact ⟨r, p, i, hroots hr, hp, (hpages (hroots hr) hp).mpr ⟨hr, hm⟩⟩

theorem Single.join {r : Nat} (hj : Joined lay w s r w' t)
    (hold : Same s.roots s.mach.mem t.mach.mem) (hnew : ∀ {q j}, q.length = 3 → leaf t.mach.mem r q j = 0) :
    Single w' t := by
  refine h.keep hsp hj.spaces (fun hx => by rw [hj.roots]; exact .inl hx)
    (fun {x q j f} hx hq => ?_) hj.added hj.held hj.user
  rw [hj.roots] at hx
  rcases hx with hx | rfl
  · rw [hold x q j hx hq]
    exact ⟨fun hm => ⟨hx, hm⟩, fun hm => hm.2⟩
  · rw [hnew hq]
    exact ⟨fun hm => absurd hm (not_maps_zero f), fun hm => absurd hm.1 hj.new⟩

theorem Single.map (hadd : w.added f) (hproc : s.roots (root p))
    (hempty : pte s.mach p.userSatp va &&& PTE_PRESENT = 0) (hm : Mapped lay w s p va flags f w' t) : Single w' t := by
  have hroots : t.roots = s.roots := roots_eq (by rw [hm.procs])
  obtain ⟨-, hfree⟩ := hsp.tables.free_frame hm.free
  have hnew : Maps (leaf t.mach.mem (root p) (upper va) (index va 12)) f := by
    rw [hm.pages _ _ _ hproc rfl, if_pos ⟨rfl, rfl, rfl⟩]
    exact hm.maps
  have hold : ∀ {x q j g}, s.roots x → q.length = 3 → Maps (leaf s.mach.mem x q j) g → Maps (leaf t.mach.mem x q j) g := by
    intro x q j g hx hq hmaps
    rw [hm.pages x q j hx hq, if_neg]
    · exact hmaps
    · rintro ⟨rfl, rfl, rfl⟩
      exact hmaps.1 hempty
  refine ⟨fun {r r' q q' i i' g} hr hr' hq hq' hmaps hmaps' => ?_, fun {r q i g} hr hq hmaps => ?_, fun {g} hg => ?_⟩
  · rw [hroots] at hr hr'
    rcases hm.pages.maps hm.maps hfree hr hq hmaps with ⟨⟨rfl, rfl, rfl⟩, rfl⟩ | ⟨hne, -, hmaps⟩
    · rcases hm.pages.maps hm.maps hfree hr' hq' hmaps' with ⟨⟨rfl, rfl, rfl⟩, -⟩ | ⟨hne, -⟩
      · exact ⟨rfl, rfl, rfl⟩
      · exact absurd rfl hne
    · rcases hm.pages.maps hm.maps hfree hr' hq' hmaps' with ⟨-, rfl⟩ | ⟨-, -, hmaps'⟩
      · exact absurd rfl hne
      · exact h.once hr hr' hq hq' hmaps hmaps'
  · rw [hroots] at hr
    rw [hm.user]
    rcases hm.pages.maps hm.maps hfree hr hq hmaps with ⟨-, rfl⟩ | ⟨hne, -, hmaps⟩
    · exact ⟨Function.update_self _ _ _, hm.one⟩
    · have hone := (h.page hr hq hmaps).2
      rw [Function.update_of_ne hne, hm.held (by omega)]
      exact ⟨h.user_kept hsp hr hq hmaps, hone⟩
  · rw [hroots]
    by_cases hgf : g = f
    · subst hgf
      exact ⟨by rw [hm.added]; exact hadd, fun _ => ⟨_, _, _, hproc, rfl, hnew⟩⟩
    rw [hm.user, Function.update_of_ne hgf] at hg
    obtain ⟨hadd', hpage⟩ := h.user_before hsp hm.spaces hm.added hg
    refine ⟨hadd', fun hne => ?_⟩
    obtain ⟨r, q, i, hr, hq, hmaps⟩ := hpage hne
    exact ⟨r, q, i, hr, hq, hold hr hq hmaps⟩

theorem Single.unmap (hp : s.procs[pid]? = some p)
    (hs : s.step lay (.unmap pid va) = some t) : ∃ w', Spaces lay w' t ∧ Single w' t := by
  have hr := roots_of_mem hp
  simp only [System.step, hp, bind_eq_bind, bind_some] at hs
  rcases hsp.tables.unmapPage hr va with ⟨-, hu⟩ | ⟨pa, m, hpa, hu, hpmm, htables, hnode, hpages⟩
  · rw [hu] at hs
    obtain rfl := some.inj hs
    rw [setMach_self]
    exact ⟨w, hsp, h⟩
  rw [hu] at hs
  obtain ⟨u, hfree, rfl⟩ := map_eq_some_iff.mp hs
  obtain ⟨hmaps, haddr⟩ := virtToPhys_some hpa
  obtain ⟨huser, hone⟩ := h.page hr rfl hmaps
  have hcases : ∀ {x q j g}, s.roots x → q.length = 3 →
      (Maps (leaf m.mem x q j) g ↔ g ≠ frameOf pa ∧ Maps (leaf s.mach.mem x q j) g) := by
    intro x q j g hx hq
    rw [hpages x q j hx hq]
    split
    · rename_i hat
      obtain ⟨rfl, rfl, rfl⟩ := hat
      exact ⟨fun hm => absurd hm (not_maps_zero g), fun hm => absurd (hm.2.2.symm.trans hmaps.2) hm.1⟩
    rename_i hat
    refine ⟨fun hm => ⟨?_, hm⟩, fun hm => hm.2⟩
    rintro rfl
    exact hat (h.once hx hr hq rfl hm hmaps)
  obtain ⟨w', htables', hmem, hadded, hheld, hlast⟩ := htables.freePage haddr (by omega)
    (fun ht => (hsp.tables.page hr rfl hmaps).2 ((hnode _).mp ht)) (fun hx hq hm => ((hcases hx hq).mp hm).1 rfl) hfree
  have hsp' : Spaces lay w' (s.setMach u) := ⟨htables', hsp.distinct⟩
  have hzero : w'.held (frameOf pa) = 0 := by rw [hlast (h.user huser).1, hone]
  rw [← hmem] at hcases
  refine ⟨w', hsp', fun hx hx' hq hq' hm hm' => ?_, fun {x q j g} hx hq hm => ?_, fun {g} hg => ?_⟩
  · exact h.once hx hx' hq hq' ((hcases hx hq).mp hm).2 ((hcases hx' hq').mp hm').2
  · obtain ⟨hne, hm⟩ := (hcases hx hq).mp hm
    rw [hheld g hne]
    exact ⟨h.user_kept hsp hx hq hm, (h.page hx hq hm).2⟩
  · obtain ⟨hadd, hpage⟩ := h.user_before hsp hsp' hadded hg
    refine ⟨hadd, fun hne => ?_⟩
    obtain ⟨r, q, i, hx, hq, hm⟩ := hpage hne
    refine ⟨r, q, i, hx, hq, (hcases hx hq).mpr ⟨?_, hm⟩⟩
    rintro rfl
    exact hne hzero

theorem Single.step {e : Event} (hc : s.counting lay e) (hbare : s.Bare e)
    (hs : s.step lay e = some t) : ∃ w', Spaces lay w' t ∧ Single w' t := by
  cases e with
  | spawn node pcb =>
    obtain ⟨w', r, hj, hold, hnew⟩ := hsp.spawn hs
    exact ⟨w', hj.spaces, h.join hsp hj hold hnew⟩
  | map node pid va flags =>
    obtain ⟨p, hp, -⟩ := bind_eq_some_iff.mp hs
    rcases hsp.map hp hs with ⟨w', hsp', hprocs, hmem, hadded, hheld, huser⟩ | ⟨f, m, w', ha, hadd, hm⟩
    · have hroots : t.roots = s.roots := roots_eq (by rw [hprocs])
      refine ⟨w', hsp', h.keep hsp hsp' (fun hx => hroots ▸ hx) (fun hx hq => ?_) hadded (fun _ => by rw [hheld]) huser⟩
      rw [hroots] at hx
      rw [hmem]
      exact ⟨fun hm => ⟨hx, hm⟩, fun hm => hm.2⟩
    have hempty : pte s.mach p.userSatp va &&& PTE_PRESENT = 0 := by
      have hnone := (of_decide_eq_true hc).1 p hp
      rw [virtToPhys_eq] at hnone
      split at hnone
      · rename_i hzero
        exact hzero
      · cases hnone
    have hcount : (m.pmm.info f).refcount ≠ 0 := by
      have hone := (of_decide_eq_true hc).2 f
      rw [ha] at hone
      rw [hone rfl]
      decide
    exact ⟨w', hm.spaces, h.map hsp (hadd hcount) (roots_of_mem hp) hempty hm⟩
  | fork node pid =>
    obtain ⟨p, hp, -⟩ := bind_eq_some_iff.mp hs
    have hbare : ∀ {q j}, q.length = 3 → leaf s.mach.mem (root p) q j &&& PTE_PRESENT = 0 := fun hq =>
      leaf_of_entry (c := fun e => e &&& PTE_PRESENT = 0) hp hbare hq
    obtain ⟨w', r, hj, hold, hnew⟩ := hsp.fork hp hs
    refine ⟨w', hj.spaces, h.join hsp hj (fun x q j hx hq => ?_) fun {q j} hq => ?_⟩
    · rw [hold hx hq, if_neg]
      rintro ⟨rfl, hpresent⟩
      exact hpresent (hbare hq)
    · rw [hnew hq, if_neg (not_not.mpr (hbare hq))]
  | fault node pid va errorCode =>
    obtain ⟨p, hp, -⟩ := bind_eq_some_iff.mp hs
    rw [fault_eq hp hs, setMach_self]
    exact ⟨w, hsp, h⟩
  | unmap pid va =>
    obtain ⟨p, hp, -⟩ := bind_eq_some_iff.mp hs
    exact h.unmap hsp hp hs
  | store pid va i x =>
    obtain ⟨p, hp, -⟩ := map_eq_some_iff.mp hs
    obtain ⟨hsp', heq, hsame⟩ := hsp.store hp hs
    refine ⟨w, hsp', h.keep hsp hsp' (fun hx => heq ▸ hx) (fun {x q j f} hx hq => ?_) rfl (fun _ => rfl) (by rw [heq]; rfl)⟩
    have hx' : s.roots x := by
      rw [heq] at hx
      exact hx
    rw [hsame x q j hx' hq]
    exact ⟨fun hm => ⟨hx', hm⟩, fun hm => hm.2⟩
  | munmap node pid addr length => cases hc
  | mprotect node pid addr length prot => cases hc

end

end

theorem mem_mappers {v : Vpn} : (pid, v) ∈ s.mappers f ↔ Maps (s.entry pid v) f := by
  unfold System.mappers
  simp only [Finset.mem_filter, Finset.mem_product, Finset.mem_range, Finset.mem_univ, and_true]
  refine ⟨fun hm => hm.2, fun hm => ⟨?_, hm⟩⟩
  by_contra hlen
  rw [System.entry, getElem?_eq_none (Nat.le_of_not_lt hlen)] at hm
  exact not_maps_zero f hm

theorem mappers_leaf {v : Vpn} (hm : (pid, v) ∈ s.mappers f) :
    ∃ p, s.procs[pid]? = some p ∧ Maps (leaf s.mach.mem (root p) [v.1, v.2.1, v.2.2.1] v.2.2.2) f := by
  rw [mem_mappers] at hm
  obtain ⟨p, hp, he⟩ := entry_leaf hm
  exact ⟨p, hp, he ▸ hm⟩

theorem Single.count (h : Single w s) (hsp : Spaces lay w s) (hf : s.user f) :
    (s.mach.pmm.info f).refcount.toNat = (s.mappers f).card := by
  obtain ⟨hadd, hpage⟩ := h.user hf
  rw [hsp.refcount hadd]
  by_cases hzero : w.held f = 0
  · rw [hzero, eq_comm, Finset.card_eq_zero]
    refine Finset.eq_empty_of_forall_notMem fun ⟨pid, v⟩ hmem => ?_
    obtain ⟨p, hp, hm⟩ := mappers_leaf hmem
    exact (hsp.tables.free_frame hzero).2 (roots_of_mem hp) rfl hm
  obtain ⟨r, q, i, ⟨p, hp, rfl⟩, hq, hm⟩ := hpage hzero
  obtain ⟨pid, hpid⟩ := getElem?_of_mem hp
  rw [(h.page (roots_of_mem hpid) hq hm).2, eq_comm, Finset.card_eq_one]
  match q, hq with
  | [a, b, d], hq =>
    refine ⟨(pid, a, b, d, i), Finset.ext fun ⟨pid', v⟩ => ?_⟩
    rw [Finset.mem_singleton]
    constructor
    · intro hmem
      obtain ⟨p', hp', hm'⟩ := mappers_leaf hmem
      obtain ⟨hroot, hpath, hi⟩ := h.once (roots_of_mem hp') (roots_of_mem hpid) rfl hq hm' hm
      obtain ⟨ha, hb, hd⟩ : v.1 = a ∧ v.2.1 = b ∧ v.2.2.1 = d := by simpa using hpath
      rw [hsp.pid_eq hp' hpid hroot, ← ha, ← hb, ← hd, ← hi]
    · rintro heq
      cases heq
      rw [mem_mappers, entry_eq hpid]
      exact hm

/-- In runs in which no address space with a page is cloned, the counter of a frame of a process is the number of entries
    that map it, and it is 0 just when there are none. -/
theorem frames_counted {lay : Pmm.Layout} (hphys : lay.kernelEnd ≤ 2 ^ 52) {w : World}
    (hw : Reach (fun w c w' => w.step lay c = some w') (fun w c => (w.proper c && w.countable c) = true) .boot w)
    (hlive : w.pmm.live = true) (mem : Nat → Index → UInt64) {s : System}
    (hr : Reach (fun s e t => s.step lay e = some t) (fun s e => s.counting lay e = true ∧ s.Bare e) (.start w.pmm mem) s)
    {f : Nat} (hf : s.user f = true) :
    (s.mach.pmm.info f).refcount.toNat = (s.mappers f).card ∧ ((s.mach.pmm.info f).refcount = 0 ↔ s.mappers f = ∅) := by
  have hinv : ∃ w, Spaces lay w s ∧ Single w s := by
    refine hr.invariant (I := fun s => ∃ w, Spaces lay w s ∧ Single w s)
      ⟨w, Spaces.start hphys (Pmm.Stock.reach hw) hlive mem, ?_⟩ fun s e t ⟨w, hsp, h⟩ hok hs => h.step hsp hok.1 hok.2 hs
    have hroots : ∀ {x}, ¬(System.start w.pmm mem).roots x := fun ⟨_, hp, _⟩ => not_mem_nil hp
    exact ⟨fun hr => absurd hr hroots, fun hr => absurd hr hroots, fun hf => by cases hf⟩
  obtain ⟨w, hsp, h⟩ := hinv
  have hcount := h.count hsp hf
  refine ⟨hcount, ?_⟩
  rw [← Finset.card_eq_zero, ← hcount]
  exact UInt32.toNat_inj.symm

end

/-! ### Runs from sixteen frames -/

def System.rootEmpty (s : System) : Event → Bool
  | .fork _ pid => ∀ p ∈ s.procs[pid]?, ∀ i, nextTable (s.mach.mem (root p) i) = none
  | _ => true

theorem System.bare_of_rootEmpty {s : System} {e : Event} (h : s.rootEmpty e) : s.Bare e := by
  cases e with
  | fork node pid =>
    intro v
    cases hp : s.procs[pid]? with
    | none =>
      rw [System.entry, hp]
      exact UInt64.zero_and
    | some p =>
      rw [entry_eq hp, leaf_none (Radix.walk_bare (of_decide_eq_true h p hp) (cons_ne_nil _ _))]
      decide
  | _ => trivial

def apartEvents : List Event :=
  [.spawn 0 someone, .fork 0 0, .map 0 0 0x400000 (PTE_WRITABLE ||| PTE_USER), .map 0 1 0x400000 (PTE_WRITABLE ||| PTE_USER),
    .fault 0 1 0x400000 7, .unmap 0 0x400000]

def staying (w : World) : Option System :=
  Reach.run (System.step Pmm.highKernel) (fun s e => s.counting Pmm.highKernel e && s.rootEmpty e)
    (.start w.pmm fun _ _ => 0) apartEvents

set_option maxRecDepth 100000 in
theorem staying_frames : (sixteen.bind staying).map (fun s => (s.user 25, (s.mach.pmm.info 25).refcount, s.user 29,
    (s.mach.pmm.info 29).refcount)) = some (true, 1, true, 0) := by
  decide +kernel

theorem frames_counted_apart : ∃ w s, sixteen = some w ∧ staying w = some s ∧ (s.mappers 25).card = 1 ∧
    s.mappers 29 = ∅ := by
  obtain ⟨s, hs, hframes⟩ := map_eq_some_iff.mp staying_frames
  obtain ⟨w, hw, hs⟩ := bind_eq_some_iff.mp hs
  simp only [Prod.mk.injEq] at hframes
  obtain ⟨huser, hone, huser', hzero⟩ := hframes
  have hr : Reach (fun s e t => s.step Pmm.highKernel e = some t) (fun s e => s.counting Pmm.highKernel e = true ∧ s.Bare e)
      (.start w.pmm fun _ _ => 0) s := by
    refine (Reach.of_run apartEvents .start hs).mono fun s e hok => ?_
    obtain ⟨hc, hempty⟩ := Bool.and_eq_true_iff.mp hok
    exact ⟨hc, System.bare_of_rootEmpty hempty⟩
  have hcount :=
    fun f => frames_counted (by decide) (Reach.of_run _ .start hw) (Spaces.sixteen hw fun _ _ => 0).tables.live _ hr (f := f)
  refine ⟨w, s, hw, hs, ?_, (hcount 29 huser').2.mp hzero⟩
  rw [← (hcount 25 huser).1, hone]
  rfl

def shareEvents : List Event := [.spawn 0 someone, .map 0 0 0x400000 (PTE_WRITABLE ||| PTE_USER), .fork 0 0]

def sharing (w : World) : Option System :=
  Reach.run (System.step Pmm.highKernel) (System.counting Pmm.highKernel) (.start w.pmm fun _ _ => 0) shareEvents

set_option maxRecDepth 100000 in
theorem sharing_frame : (sixteen.bind sharing).map (fun s => ((s.mach.pmm.info 30).refcount, s.user 30,
    decide (Maps (s.entry 0 (0, 0, 2, 0)) 30), decide (Maps (s.entry 1 (0, 0, 2, 0)) 30))) = some (1, true, true, true) := by
  decide +kernel

/-- After the fork two address spaces map a frame that has one reference. -/
theorem frame_undercounted : ∃ (w : World) (s : System),
    Reach (fun w c w' => w.step Pmm.highKernel c = some w') (fun w c => (w.proper c && w.countable c) = true) .boot w ∧
    Reach (fun s e t => s.step Pmm.highKernel e = some t) (fun s e => s.counting Pmm.highKernel e = true)
      (.start w.pmm fun _ _ => 0) s ∧
    s.user 30 = true ∧ (s.mach.pmm.info 30).refcount = 1 ∧ 1 < (s.mappers 30).card := by
  obtain ⟨s, hs, hframe⟩ := map_eq_some_iff.mp sharing_frame
  obtain ⟨w, hw, hs⟩ := bind_eq_some_iff.mp hs
  simp only [Prod.mk.injEq, decide_eq_true_eq] at hframe
  obtain ⟨hone, huser, hparent, hchild⟩ := hframe
  refine ⟨w, s, Reach.of_run _ .start hw, Reach.of_run shareEvents .start hs, huser, hone, ?_⟩
  exact Finset.one_lt_card.mpr ⟨(0, 0, 0, 2, 0), mem_mappers.mpr hparent, (1, 0, 0, 2, 0), mem_mappers.mpr hchild, by decide⟩

end Moxide.Paging
