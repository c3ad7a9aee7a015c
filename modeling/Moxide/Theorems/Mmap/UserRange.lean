import Moxide.Lib.Word
import Moxide.Theorems.Mmap.Sorted

/-! The memory calls against the bound of user space, which none of them compares an address with. -/

namespace Moxide.Mmap
open Lib List Option
open UInt64 (lt_iff_toNat_lt le_iff_toNat_le toNat_inj ofNat)

def USER_SPACE_END : Nat := 0x0000800000000000

def roundUp (n : Nat) : Nat := (n + 4095) / 4096 * 4096

theorem toNat_and_not_mask (x : UInt64) : (x &&& ~~~(PAGE - 1)).toNat = x.toNat / 4096 * 4096 :=
  Word.toNat_clear_low (k := 12) (by decide) (by decide) x

theorem toNat_pageAlignUp {n : UInt64} (h : n.toNat + 4095 < 2 ^ 64) : (pageAlignUp n).toNat = roundUp n.toNat := by
  have hsum : n + PAGE - 1 = n + 4095 := by
    rw [UInt64.sub_eq_add_neg, UInt64.add_assoc]
    rfl
  rw [pageAlignUp, toNat_and_not_mask, hsum, Word.toNat_add_of_lt h]
  rfl

theorem le_roundUp (n : Nat) : n ≤ roundUp n := by
  unfold roundUp
  omega

/-! ### What calls do to page tables and frames -/

inductive Op where
  | map (cr3 va pa : UInt64) (flags : PageFlags)
  | unmap (cr3 va : UInt64) (found : Option UInt64)
  | free (pa : UInt64)
  deriving DecidableEq, Repr

def Memory.logged {μ : Type} (M : Memory μ) : Memory (μ × List Op) where
  allocPage m := (M.allocPage m.1).map fun r => (r.1, (r.2, m.2))
  freePage m pa := (M.freePage m.1 pa).map fun m' => (m', m.2 ++ [.free pa])
  mapPage m cr3 va pa flags := (M.mapPage m.1 cr3 va pa flags).map fun m' => (m', m.2 ++ [.map cr3 va pa flags])
  unmapPage m cr3 va := (M.unmapPage m.1 cr3 va, m.2 ++ [.unmap cr3 va (M.virtToPhys m.1 cr3 va)])
  virtToPhys m := M.virtToPhys m.1

/-- The entry is one of user space; a frame freed is one that an entry of the record led to. -/
def Op.InUser (log : List Op) : Op → Prop
  | .map _ va _ _ => va.toNat < USER_SPACE_END
  | .unmap _ va _ => va.toNat < USER_SPACE_END
  | .free pa => ∃ cr3 va, .unmap cr3 va (some pa) ∈ log

/-- No entry at or above the bound was made, changed or taken away, and no frame was freed but those that entries
    below it led to. -/
def UserOnly (log : List Op) : Prop := ∀ op ∈ log, op.InUser log

theorem Op.InUser.mono {log log' : List Op} {op : Op} (h : op.InUser log) (hsub : log ⊆ log') : op.InUser log' := by
  cases op with
  | map cr3 va pa flags => exact h
  | unmap cr3 va found => exact h
  | free pa =>
    obtain ⟨cr3, va, hmem⟩ := h
    exact ⟨cr3, va, hsub hmem⟩

theorem UserOnly.push {log : List Op} (h : UserOnly log) (op : Op) (hop : op.InUser log) : UserOnly (log ++ [op]) := by
  intro x hx
  rcases mem_append.mp hx with hx | hx
  · exact (h x hx).mono (subset_append_left _ _)
  · obtain rfl := mem_singleton.mp hx
    exact hop.mono (subset_append_left _ _)

section Pages
variable {μ : Type} {M : Memory μ} {cr3 : UInt64} {flags : PageFlags} {isPhys : UInt64 → Bool}

theorem unmapPages_user (pages : List UInt64) (hpages : ∀ va ∈ pages, va.toNat < USER_SPACE_END) :
    ∀ m : μ × List Op, UserOnly m.2 → UserOnly (unmapPages M.logged cr3 isPhys m pages).1.2 ∧
      m.2 ⊆ (unmapPages M.logged cr3 isPhys m pages).1.2 ∧
      ∀ pa ∈ (unmapPages M.logged cr3 isPhys m pages).2,
        ∃ va, Op.unmap cr3 va (some pa) ∈ (unmapPages M.logged cr3 isPhys m pages).1.2 := by
  induction pages with
  | nil =>
    intro m hm
    exact ⟨hm, List.Subset.refl _, fun pa hpa => by cases hpa⟩
  | cons va rest ih =>
    intro m hm
    have hrest := fun x hx => hpages x (mem_cons_of_mem _ hx)
    rw [unmapPages]
    cases hfound : M.logged.virtToPhys m cr3 va with
    | none => exact ih hrest m hm
    | some pa =>
      have hpush : UserOnly (M.logged.unmapPage m cr3 va).2 := hm.push (.unmap ..) (hpages va mem_cons_self)
      obtain ⟨huser, hsub, hfree⟩ := ih hrest _ hpush
      have hop : Op.unmap cr3 va (some pa) ∈ (unmapPages M.logged cr3 isPhys (M.logged.unmapPage m cr3 va) rest).1.2 := by
        refine hsub (mem_append_right _ ?_)
        rw [← hfound]
        exact mem_cons_self
      refine ⟨huser, fun x hx => hsub (mem_append_left _ hx), ?_⟩
      intro pa' hpa'
      dsimp only at hpa'
      split at hpa'
      · exact hfree pa' hpa'
      · rcases mem_cons.mp hpa' with rfl | hpa'
        · exact ⟨va, hop⟩
        · exact hfree pa' hpa'

theorem freePages_user (toFree : List UInt64) : ∀ {m m' : μ × List Op}, UserOnly m.2 →
    (∀ pa ∈ toFree, ∃ va, Op.unmap cr3 va (some pa) ∈ m.2) → freePages M.logged m toFree = some m' → UserOnly m'.2 := by
  induction toFree with
  | nil =>
    intro m m' hm _ h
    cases h
    exact hm
  | cons pa rest ih =>
    intro m m' hm hfound h
    obtain ⟨m'', hfree, hrest⟩ := bind_eq_some_iff.mp h
    obtain ⟨mem, -, rfl⟩ := map_eq_some_iff.mp hfree
    obtain ⟨va, hva⟩ := hfound pa mem_cons_self
    refine ih (hm.push (.free pa) ⟨cr3, va, hva⟩) ?_ hrest
    intro pa' hpa'
    obtain ⟨va', hva'⟩ := hfound pa' (mem_cons_of_mem _ hpa')
    exact ⟨va', mem_append_left _ hva'⟩

section
variable (pages : List UInt64) (hpages : ∀ va ∈ pages, va.toNat < USER_SPACE_END)
include hpages

theorem mapFresh_user :
    ∀ {m m' : μ × List Op} {n : Nat} {out : Option (Nat × UInt64)}, UserOnly m.2 →
      mapFresh M.logged cr3 flags m pages n = some (m', out) →
      UserOnly m'.2 ∧ ∀ k va, out = some (k, va) → k < n + pages.length := by
  induction pages with
  | nil =>
    intro m m' n out hm h
    cases h
    exact ⟨hm, fun k va hout => by cases hout⟩
  | cons va rest ih =>
    intro m m' n out hm h
    unfold mapFresh at h
    split at h
    · cases h
    · rename_i m₁ halloc
      cases h
      obtain ⟨⟨r, r'⟩, -, heq⟩ := map_eq_some_iff.mp halloc
      cases heq
      refine ⟨hm, fun k va' hout => ?_⟩
      cases hout
      simp
    rename_i pa m₁ halloc
    obtain ⟨⟨r, r'⟩, -, heq⟩ := map_eq_some_iff.mp halloc
    cases heq
    split at h
    · cases h
    rename_i m₂ hmap
    obtain ⟨mem, -, rfl⟩ := map_eq_some_iff.mp hmap
    have hpush := hm.push (.map cr3 va pa flags) (hpages va mem_cons_self)
    obtain ⟨huser, hout⟩ := ih (fun x hx => hpages x (mem_cons_of_mem _ hx)) hpush h
    refine ⟨huser, fun k va' hk => ?_⟩
    have := hout k va' hk
    rw [length_cons]
    omega

theorem rollback_user : ∀ {m m' : μ × List Op}, UserOnly m.2 → rollback M.logged cr3 m pages = some m' → UserOnly m'.2 := by
  induction pages with
  | nil =>
    intro m m' hm h
    cases h
    exact hm
  | cons va rest ih =>
    intro m m' hm h
    have hrest := fun x hx => hpages x (mem_cons_of_mem _ hx)
    unfold rollback at h
    split at h
    · exact ih hrest hm h
    rename_i pa hfound
    obtain ⟨m₁, hfree, h⟩ := bind_eq_some_iff.mp h
    obtain ⟨mem, -, rfl⟩ := map_eq_some_iff.mp hfree
    have hpush : UserOnly (M.logged.unmapPage m cr3 va).2 := hm.push (.unmap ..) (hpages va mem_cons_self)
    refine ih hrest (hpush.push (.free pa) ⟨cr3, va, mem_append_right _ ?_⟩) h
    rw [← hfound]
    exact mem_cons_self

theorem mapPhysPages_user :
    ∀ {m m' : μ × List Op} {pa : UInt64}, UserOnly m.2 → mapPhysPages M.logged cr3 flags m pages pa = some m' →
      UserOnly m'.2 := by
  induction pages with
  | nil =>
    intro m m' pa hm h
    cases h
    exact hm
  | cons va rest ih =>
    intro m m' pa hm h
    obtain ⟨m₁, hmap, h⟩ := bind_eq_some_iff.mp h
    obtain ⟨mem, -, rfl⟩ := map_eq_some_iff.mp hmap
    exact ih (fun x hx => hpages x (mem_cons_of_mem _ hx))
      (hm.push (.map cr3 va pa flags) (hpages va mem_cons_self)) h

theorem remapPages_user :
    ∀ {m m' : μ × List Op}, UserOnly m.2 → remapPages M.logged cr3 flags m pages = some m' → UserOnly m'.2 := by
  induction pages with
  | nil =>
    intro m m' hm h
    cases h
    exact hm
  | cons va rest ih =>
    intro m m' hm h
    have hrest := fun x hx => hpages x (mem_cons_of_mem _ hx)
    unfold remapPages at h
    split at h
    · exact ih hrest hm h
    rename_i pa hfound
    obtain ⟨m₁, hmap, h⟩ := bind_eq_some_iff.mp h
    obtain ⟨mem, -, rfl⟩ := map_eq_some_iff.mp hmap
    exact ih hrest (hm.push (.map cr3 va pa flags) (hpages va mem_cons_self)) h

end

theorem unmap_free_user {pages : List UInt64}
    (hpages : ∀ va ∈ pages, va.toNat < USER_SPACE_END) {m m' : μ × List Op} (hm : UserOnly m.2)
    (h : freePages M.logged (unmapPages M.logged cr3 isPhys m pages).1
      (unmapPages M.logged cr3 isPhys m pages).2 = some m') :
    UserOnly m'.2 := by
  have hunmap : UserOnly (unmapPages M.logged cr3 isPhys m pages).1.2 ∧ _ ∧ _ := unmapPages_user pages hpages m hm
  exact freePages_user _ hunmap.1 hunmap.2.2 h

end Pages

/-! ### VMAs -/

def Vma.InUser (v : Vma) : Prop := v.start < v.stop ∧ v.stop.toNat ≤ USER_SPACE_END

variable {vmas : List Vma} {brkBase newBrk : UInt64} {v : Vma} {a b : UInt64} {k : Nat} {p : Pcb}

section
variable (h : ∀ w ∈ vmas, w.InUser)
include h

theorem inUser_insertVma (hv : v.InUser) : ∀ w ∈ insertVma vmas v, w.InUser := by
  intro w hw
  rcases eq_or_mem_of_mem_insertIdx hw with rfl | hw
  · exact hv
  · exact h w hw

theorem inUser_removeVma (addr len : UInt64) : ∀ w ∈ removeVma vmas addr len, w.InUser :=
  fun w hw => h w (mem_filter.mp hw).1

theorem inUser_carveLoop (addr stop : UInt64) : ∀ w ∈ carveLoop addr stop [] vmas, w.InUser := by
  intro w hw
  rw [carveLoop_eq] at hw
  obtain ⟨v, hv, hw⟩ := mem_flatMap.mp hw
  obtain ⟨-, hstop, hpiece, -⟩ := Vma.mem_pieces hw
  refine ⟨?_, hstop.trans (h v hv).2⟩
  rcases hpiece with rfl | hlt
  · exact (h w hv).1
  · exact hlt

end

section
variable (h : ∀ w ∈ vmas, w.InUser) (hnew : brkBase < newBrk) (hend : newBrk.toNat ≤ USER_SPACE_END)
include h hnew hend

theorem inUser_setHeapEnd {vmas' : List Vma} (hset : setHeapEnd brkBase newBrk vmas = some vmas') :
    ∀ w ∈ vmas', w.InUser := by
  obtain ⟨a, v, b, rfl, hstart, rfl, -⟩ := setHeapEnd_split hset
  intro w hw
  rcases mem_append.mp hw with hw | hw
  · exact h w (mem_append_left _ hw)
  rcases mem_cons.mp hw with rfl | hw
  · exact ⟨by rwa [hstart], hend⟩
  · exact h w (mem_append_right _ (mem_cons_of_mem _ hw))

theorem inUser_coalesce : ∀ w ∈ coalesceOrInsertHeapVma vmas brkBase newBrk, w.InUser := by
  unfold coalesceOrInsertHeapVma
  split
  · rename_i vmas' hset
    exact inUser_setHeapEnd h hnew hend hset
  · exact inUser_insertVma h ⟨hnew, hend⟩

theorem inUser_trim : ∀ w ∈ trimHeapVma vmas brkBase newBrk, w.InUser := by
  unfold trimHeapVma
  cases hset : setHeapEnd brkBase newBrk vmas with
  | none => exact h
  | some vmas' => exact inUser_setHeapEnd h hnew hend hset

end

/-! ### The calls -/

/-- What a process keeps: the record and the VMAs are of user space, and so is the heap. -/
structure Inside {μ : Type} (s : State (μ × List Op)) : Prop where
  log : UserOnly s.mem.2
  vmas : ∀ v ∈ s.pcb.vmas, v.InUser
  heap : s.pcb.brkBase ≤ s.pcb.brk
  brk : s.pcb.brk.toNat ≤ USER_SPACE_END

theorem toNat_add_of_user {va len : UInt64} (h : va.toNat + len.toNat ≤ USER_SPACE_END) :
    (va + len).toNat = va.toNat + len.toNat :=
  Word.toNat_add_of_lt (lt_of_le_of_lt h (by decide))

theorem pagesOf_user (h : b.toNat ≤ USER_SPACE_END) : ∀ x ∈ pagesOf a b, x.toNat < USER_SPACE_END := by
  intro x hx
  have hlt := lt_iff_toNat_lt.mp (mem_pagesOf hx).2
  omega

theorem saturatingAdd_user (h : a.toNat + b.toNat ≤ USER_SPACE_END) : (saturatingAdd a b).toNat ≤ USER_SPACE_END := by
  have hsum := toNat_add_of_user h
  unfold saturatingAdd
  split
  · omega
  · unfold USER_SPACE_END at h
    omega

section Calls
variable {μ : Type} {M : Memory μ} {g : Gop} {s t : State (μ × List Op)} {c : MmapArgs}

variable {addr len va length : UInt64} {r : Int64}

def Fits (va len : UInt64) : Prop := va.toNat + len.toNat ≤ USER_SPACE_END

theorem Fits.pagesOf_user (h : Fits va len) : ∀ x ∈ pagesOf va (va + len), x.toNat < USER_SPACE_END := by
  refine Mmap.pagesOf_user ?_
  rw [toNat_add_of_user h]
  exact h

section
variable (h : Inside s)
include h

theorem Inside.removeVmaInner {stop : UInt64} (hstop : stop.toNat ≤ USER_SPACE_END)
    (hrem : removeVmaInner M.logged s addr stop = some t) : Inside t := by
  obtain ⟨m, hfree, rfl⟩ := map_eq_some_iff.mp hrem
  exact ⟨unmap_free_user (pagesOf_user hstop) h.log hfree, inUser_carveLoop h.vmas addr stop, h.heap, h.brk⟩

theorem Inside.bump (len : UInt64) : Inside { s with pcb := (s.pcb.bump len).2 } :=
  { h with }

theorem Inside.placePhys (haddr : c.isFixed → Fits c.addr len)
    (hnext : c.isFixed = false → Fits s.pcb.nextVa len) (hp : placePhys M.logged s c len = some (va, t)) :
    Inside t ∧ (va ≠ 0 → Fits va len) := by
  unfold Mmap.placePhys at hp
  split at hp
  · rename_i hfixed
    split at hp
    · cases hp
      exact ⟨h, fun hne => absurd rfl hne⟩
    · obtain ⟨u, hrem, heq⟩ := map_eq_some_iff.mp hp
      cases heq
      exact ⟨h.removeVmaInner (saturatingAdd_user (haddr hfixed)) hrem, fun _ => haddr hfixed⟩
  · rename_i hfixed
    cases hp
    exact ⟨h.bump len, fun _ => hnext (Bool.eq_false_iff.mpr hfixed)⟩

theorem Inside.place (haddr : c.isFixed ∨ c.isFixedNoreplace → Fits c.addr len)
    (hnext : ¬(c.isFixed ∨ c.isFixedNoreplace) → Fits s.pcb.nextVa len)
    (hp : place M.logged s c len = some (va, t)) : Inside t ∧ Fits va len := by
  unfold Mmap.place at hp
  split at hp
  · rename_i hfixed
    split at hp
    · cases hp
      exact ⟨h, haddr hfixed⟩
    · obtain ⟨u, hrem, heq⟩ := map_eq_some_iff.mp hp
      cases heq
      exact ⟨h.removeVmaInner (saturatingAdd_user (haddr hfixed)) hrem, haddr hfixed⟩
  · rename_i hfixed
    cases hp
    exact ⟨h.bump len, hnext hfixed⟩

theorem Inside.insert {m : μ × List Op} (hm : UserOnly m.2) (hfit : Fits va len)
    (hlen : len ≠ 0) (hstart : v.start = va) (hstop : v.stop = va + len) :
    Inside ((s.setMem m).setVmas (insertVma s.pcb.vmas v)) := by
  refine ⟨hm, inUser_insertVma h.vmas ?_, h.heap, h.brk⟩
  have hsum := toNat_add_of_user hfit
  have hpos : len.toNat ≠ 0 := fun h0 => hlen (toNat_inj.mp h0)
  refine ⟨?_, ?_⟩
  · rw [hstart, hstop, lt_iff_toNat_lt]
    omega
  · rw [hstop, hsum]
    exact hfit

theorem Inside.mmapPhys {pa : UInt64} (hlen : len ≠ 0)
    (haddr : c.isFixed → Fits c.addr len) (hnext : c.isFixed = false → Fits s.pcb.nextVa len)
    (hm : mmapPhys M.logged s c len pa = some (r, t)) : Inside t := by
  obtain ⟨⟨va, u⟩, hplace, hrest⟩ := bind_eq_some_iff.mp hm
  obtain ⟨hu, hfit⟩ := h.placePhys haddr hnext hplace
  dsimp only at hrest
  split at hrest
  · cases hrest
    exact hu
  rename_i hne
  rw [not_or] at hne
  obtain ⟨m, hmap, heq⟩ := map_eq_some_iff.mp hrest
  cases heq
  have hfit := hfit hne.1
  exact hu.insert (mapPhysPages_user _ hfit.pagesOf_user hu.log hmap) hfit hlen rfl rfl

end

theorem rollback_end (hfit : Fits va len) (halign : len.toNat % 4096 = 0)
    (hk : k < (pagesOf va (va + len)).length) : (va + ofNat k * PAGE).toNat ≤ USER_SPACE_END := by
  have hsum := toNat_add_of_user hfit
  have hfit' : va.toNat + len.toNat ≤ USER_SPACE_END := hfit
  have hlen : k < len.toNat / 4096 := by
    rw [pagesOf, length_map, length_range] at hk
    omega
  have hmul : (ofNat k * PAGE).toNat = k * 4096 := by
    unfold USER_SPACE_END at hfit'
    have hsize : k < UInt64.size := by change k < 2 ^ 64; omega
    rw [UInt64.toNat_mul, UInt64.toNat_ofNat_of_lt' hsize]
    exact Nat.mod_eq_of_lt (by change k * 4096 < 2 ^ 64; omega)
  rw [toNat_add_of_user] <;> omega

theorem Inside.mmapAnon (h : Inside s) (hfit : Fits va len) (hlen : len ≠ 0)
    (halign : len.toNat % 4096 = 0) (hm : mmapAnon M.logged s c va len = some (r, t)) : Inside t := by
  obtain ⟨⟨m, out⟩, hmap, hrest⟩ := bind_eq_some_iff.mp hm
  obtain ⟨huser, hout⟩ := mapFresh_user _ hfit.pagesOf_user h.log hmap
  cases out with
  | none =>
    cases hrest
    exact h.insert huser hfit hlen rfl rfl
  | some out =>
    obtain ⟨k, page⟩ := out
    obtain ⟨m', hroll, heq⟩ := map_eq_some_iff.mp hrest
    cases heq
    have hk := hout k page rfl
    rw [zero_add] at hk
    have huser' := rollback_user _ (pagesOf_user (rollback_end hfit halign hk)) huser hroll
    have hins := h.insert (v := c.anonVma va len) huser' hfit hlen rfl rfl
    exact ⟨huser', inUser_removeVma hins.vmas va len, h.heap, h.brk⟩

theorem Inside.mmapPlain (h : Inside s) (hlen : len ≠ 0) (halign : len.toNat % 4096 = 0)
    (haddr : c.isFixed ∨ c.isFixedNoreplace → Fits c.addr len)
    (hnext : ¬(c.isFixed ∨ c.isFixedNoreplace) → Fits s.pcb.nextVa len)
    (hm : mmapPlain M.logged s c len = some (r, t)) : Inside t := by
  obtain ⟨⟨va, u⟩, hplace, hrest⟩ := bind_eq_some_iff.mp hm
  obtain ⟨hu, hfit⟩ := h.place haddr hnext hplace
  dsimp only at hrest
  split at hrest
  · cases hrest
    exact hu
  split at hrest
  · cases hrest
    exact hu
  split at hrest
  · exact hu.mmapAnon hfit hlen halign hrest
  · cases hrest
    exact hu.insert (m := u.mem) hu.log hfit hlen rfl rfl

def MmapArgs.fbFits (g : Gop) (c : MmapArgs) : Bool :=
  match c.framebuffer g with
  | some (fbPhys, _) => fbPhys.toNat + c.offset.toNat + roundUp c.length.toNat < 2 ^ 64
  | none => true

def Pcb.mmapInUser (g : Gop) (p : Pcb) (c : MmapArgs) : Prop :=
  (c.isFixed = true ∨ c.isFixedNoreplace = true → c.addr.toNat + roundUp c.length.toNat ≤ USER_SPACE_END) ∧
    (c.atAddr g = false → p.nextVa.toNat + roundUp c.length.toNat ≤ USER_SPACE_END) ∧ c.fbFits g = true

instance (g : Gop) (p : Pcb) (c : MmapArgs) : Decidable (p.mmapInUser g c) := by
  unfold Pcb.mmapInUser
  infer_instance

theorem toNat_pageAlignUp_of_user {a : Nat} {n : UInt64} (h : a + roundUp n.toNat ≤ USER_SPACE_END) :
    (pageAlignUp n).toNat = roundUp n.toNat := by
  have hle := le_roundUp n.toNat
  unfold USER_SPACE_END at h
  exact toNat_pageAlignUp (by omega)

theorem Pcb.mmapInUser.roundUp_le (h : p.mmapInUser g c) : 0 + roundUp c.length.toNat ≤ USER_SPACE_END := by
  rw [zero_add]
  cases hat : c.atAddr g with
  | false => exact (Nat.le_add_left _ _).trans (h.2.1 hat)
  | true =>
    refine (Nat.le_add_left _ _).trans (h.1 ?_)
    unfold MmapArgs.atAddr at hat
    split at hat
    · exact .inl hat
    · simpa using hat

theorem Pcb.mmapInUser.toNat_len (h : p.mmapInUser g c) : (pageAlignUp c.length).toNat = roundUp c.length.toNat :=
  toNat_pageAlignUp_of_user h.roundUp_le

theorem safeLen_le (c : MmapArgs) (fbSize : UInt64) : (c.safeLen fbSize).toNat ≤ (pageAlignUp c.length).toNat := by
  change (if _ ≤ _ then _ else _ : UInt64).toNat ≤ _
  split
  · exact le_refl _
  · rename_i hle
    rw [le_iff_toNat_le, not_le] at hle
    exact le_of_lt hle

theorem Inside.sysMmap (h : Inside s) (huser : s.pcb.mmapInUser g c) (hm : sysMmap M.logged g s c = some (r, t)) :
    Inside t := by
  have hlen := huser.toNat_len
  have hle := le_roundUp c.length.toNat
  unfold Mmap.sysMmap at hm
  dsimp only at hm
  split at hm
  · cases hm
    exact h
  rename_i hzero
  have hpos : c.length.toNat ≠ 0 := fun h0 => hzero (toNat_inj.mp h0)
  split at hm
  · cases hm
    exact h
  split at hm
  · cases hm
    exact h
  split at hm
  · cases hm
    exact h
  split at hm
  · cases hm
    exact h
  split at hm
  · rename_i fbPhys fbSize hfb
    split at hm
    · cases hm
      exact h
    rename_i hsafe
    have hmin : (c.safeLen fbSize).toNat ≤ roundUp c.length.toNat := hlen ▸ safeLen_le c fbSize
    refine h.mmapPhys hsafe (fun hfixed => ?_) (fun hfixed => ?_) hm
    · exact (Nat.add_le_add_left hmin _).trans (huser.1 (.inl hfixed))
    · refine (Nat.add_le_add_left hmin _).trans (huser.2.1 ?_)
      simp only [MmapArgs.atAddr, hfb, hfixed]
  · rename_i hfb
    have hne : pageAlignUp c.length ≠ 0 := by
      intro h0
      rw [h0] at hlen
      change 0 = _ at hlen
      omega
    refine h.mmapPlain hne ?_ (fun hfixed => ?_) (fun hfixed => ?_) hm
    · rw [hlen]
      exact Nat.mul_mod_left _ _
    · rw [Fits, hlen]
      exact huser.1 hfixed
    · rw [Fits, hlen]
      refine huser.2.1 ?_
      simpa [MmapArgs.atAddr, hfb] using hfixed

theorem fits_pageAlignUp (h : addr.toNat + roundUp length.toNat ≤ USER_SPACE_END) : Fits addr (pageAlignUp length) := by
  rw [Fits, toNat_pageAlignUp_of_user h]
  exact h

section
variable (h : Inside s) (huser : addr.toNat + roundUp length.toNat ≤ USER_SPACE_END)
include h huser

theorem Inside.sysMunmap (hm : sysMunmap M.logged s addr length = some (r, t)) : Inside t := by
  unfold Mmap.sysMunmap at hm
  split at hm
  · cases hm
    exact h
  split at hm
  · cases hm
    exact h
  obtain ⟨m, hfree, heq⟩ := map_eq_some_iff.mp hm
  cases heq
  exact ⟨unmap_free_user (fits_pageAlignUp huser).pagesOf_user h.log hfree, inUser_removeVma h.vmas _ _, h.heap, h.brk⟩

theorem Inside.sysMprotect {prot : UInt32} (hm : sysMprotect M.logged s addr length prot = some (r, t)) : Inside t := by
  unfold Mmap.sysMprotect at hm
  split at hm
  · cases hm
    exact h
  split at hm
  · cases hm
    exact h
  split at hm
  · cases hm
    exact h
  obtain ⟨m, hremap, heq⟩ := map_eq_some_iff.mp hm
  cases heq
  refine ⟨remapPages_user _ (fits_pageAlignUp huser).pagesOf_user h.log hremap, fun w hw => ?_, h.heap, h.brk⟩
  obtain ⟨v, hv, rfl⟩ := List.mem_map.mp hw
  unfold Vma.protect
  split
  · exact h.vmas v hv
  · exact h.vmas v hv

end

theorem pagesOf_eq_cons (hlt : a < b) (hb : b.toNat ≤ USER_SPACE_END) : pagesOf a b = a :: pagesOf (a + 4096) b := by
  rw [lt_iff_toNat_lt] at hlt
  have hnext : (a + 4096).toNat = a.toNat + 4096 := by
    unfold USER_SPACE_END at hb
    exact Word.toNat_add_of_lt (by change a.toNat + 4096 < 2 ^ 64; omega)
  have hcount : (b.toNat - a.toNat + 4095) / 4096 = (b.toNat - (a + 4096).toNat + 4095) / 4096 + 1 := by omega
  rw [pagesOf, hcount, range_succ_eq_map, map_cons, List.map_map]
  refine congrArg₂ _ (UInt64.add_zero a) (map_congr_left fun i _ => ?_)
  have hmul : (i + 1) * 4096 = 4096 + i * 4096 := by omega
  rw [Function.comp_apply, hmul, UInt64.ofNat_add, UInt64.add_assoc]
  rfl

theorem mapFresh_out_tail {μ : Type} {M : Memory μ} {cr3 page : UInt64} {flags : PageFlags} {m m' : μ} {n : Nat}
    {rest : List UInt64} (halloc : (M.allocPage m).all (·.1.isSome))
    (h : mapFresh M cr3 flags m (page :: rest) n = some (m', some (k, va))) : va ∈ rest := by
  unfold mapFresh at h
  split at h
  · cases h
  · rename_i m₁ hnone
    rw [hnone] at halloc
    cases halloc
  · split at h
    · cases h
    · exact mapFresh_out h

/-- The call only asks where the heap ends: it is answered before anything is computed. -/
def Pcb.brkAsks (p : Pcb) (addr : UInt64) : Bool := p.brkBase = 0 ∨ addr = 0 ∨ addr < p.brkBase

/-- The call only asks where the heap ends, or the heap ends by the bound and is left nonempty: it does not shrink to
    nothing, and when it starts to grow there is a frame for its first page. -/
def brkInUser (M : Memory μ) (s : State (μ × List Op)) (addr : UInt64) : Bool :=
  s.pcb.brkAsks addr ∨
    addr.toNat ≤ USER_SPACE_END ∧ (pageAlignUp addr < s.pcb.brk → s.pcb.brkBase < addr) ∧
      (s.pcb.brk = s.pcb.brkBase → s.pcb.brk < pageAlignUp addr → (M.logged.allocPage s.mem).all (·.1.isSome))

theorem Inside.brkGrow {newBrk : UInt64} (h : Inside s) (hlt : s.pcb.brk < newBrk) (hend : newBrk.toNat ≤ USER_SPACE_END)
    (halloc : s.pcb.brk = s.pcb.brkBase → (M.logged.allocPage s.mem).all (·.1.isSome))
    (hm : brkGrow M.logged s newBrk = some (r, t)) : Inside t := by
  unfold Mmap.brkGrow at hm
  dsimp only at hm
  split at hm
  · cases hm
    exact h
  obtain ⟨⟨m, out⟩, hmap, heq⟩ := map_eq_some_iff.mp hm
  have huser := (mapFresh_user _ (pagesOf_user hend) h.log hmap).1
  -- where the heap ends: past its base and by the bound
  suffices hreach : ∀ reached : UInt64, s.pcb.brkBase < reached → reached.toNat ≤ USER_SPACE_END →
      Inside (((s.setMem m).setVmas (coalesceOrInsertHeapVma s.pcb.vmas s.pcb.brkBase reached)).setBrk reached) by
    cases out with
    | none =>
      cases heq
      exact hreach newBrk (UInt64.lt_of_le_of_lt h.heap hlt) hend
    | some out =>
      cases heq
      obtain ⟨hlo, hhi⟩ := mem_pagesOf (mapFresh_out hmap)
      rw [lt_iff_toNat_lt] at hhi
      refine hreach out.2 ?_ (by omega)
      by_cases hbase : s.pcb.brk = s.pcb.brkBase
      · rw [pagesOf_eq_cons hlt hend] at hmap
        have hnext := (mem_pagesOf (mapFresh_out_tail (halloc hbase) hmap)).1
        have hsum : (s.pcb.brk + 4096).toNat = s.pcb.brk.toNat + 4096 := by
          have := h.brk
          unfold USER_SPACE_END at this
          exact Word.toNat_add_of_lt (by change _ + 4096 < 2 ^ 64; omega)
        rw [le_iff_toNat_le] at hnext
        rw [← hbase, lt_iff_toNat_lt]
        omega
      · exact UInt64.lt_of_lt_of_le (UInt64.lt_of_le_of_ne h.heap (Ne.symm hbase)) hlo
  intro reached hlo hhi
  exact ⟨huser, inUser_coalesce h.vmas hlo hhi, UInt64.le_of_lt hlo, hhi⟩

theorem Inside.brkShrink {newBrk : UInt64} (h : Inside s) (hlo : s.pcb.brkBase < newBrk)
    (hlt : newBrk < s.pcb.brk) (hm : brkShrink M.logged s newBrk = some (r, t)) : Inside t := by
  obtain ⟨m, hfree, heq⟩ := map_eq_some_iff.mp hm
  cases heq
  have hend := h.brk
  rw [lt_iff_toNat_lt] at hlt
  exact ⟨unmap_free_user (pagesOf_user h.brk) h.log hfree, inUser_trim h.vmas hlo (by omega), UInt64.le_of_lt hlo,
    by change newBrk.toNat ≤ _; omega⟩

theorem Inside.sysBrk (h : Inside s) (huser : brkInUser M s addr) (hm : sysBrk M.logged s addr = some (r, t)) :
    Inside t := by
  rcases of_decide_eq_true huser with hasks | ⟨haddr, hshrink, halloc⟩
  · have hreturns : s.pcb.brkBase = 0 ∨ addr = 0 ∨ addr < s.pcb.brkBase ∨ s.pcb.userSatp = 0 :=
      (of_decide_eq_true hasks).imp_right (Or.imp_right Or.inl)
    rw [Mmap.sysBrk, if_pos hreturns] at hm
    cases hm
    exact h
  have hnew : (pageAlignUp addr).toNat = roundUp addr.toNat := by
    refine toNat_pageAlignUp ?_
    unfold USER_SPACE_END at haddr
    omega
  have hround : addr.toNat ≤ roundUp addr.toNat ∧ roundUp addr.toNat ≤ USER_SPACE_END := by
    unfold roundUp USER_SPACE_END at *
    omega
  unfold Mmap.sysBrk at hm
  dsimp only at hm
  split at hm
  · cases hm
    exact h
  split at hm
  · rename_i hlt
    exact h.brkGrow hlt (by omega) (fun hbase => halloc hbase hlt) hm
  split at hm
  · rename_i hlt
    refine h.brkShrink ?_ hlt hm
    have hbase := lt_iff_toNat_lt.mp (hshrink hlt)
    rw [lt_iff_toNat_lt]
    omega
  · rename_i hgrow hless
    cases hm
    have heq : pageAlignUp addr = s.pcb.brk := UInt64.le_antisymm (UInt64.not_lt.mp hgrow) (UInt64.not_lt.mp hless)
    rw [heq]
    exact h

/-! ### Runs -/

/-- The pages that a call names end by the bound. What others do to the memory is not on the record. -/
def State.inUser (M : Memory μ) (g : Gop) (s : State (μ × List Op)) : Event (μ × List Op) → Bool
  | .mmap c => s.pcb.mmapInUser g c
  | .munmap addr length => addr.toNat + roundUp length.toNat ≤ USER_SPACE_END
  | .mprotect addr length _ => addr.toNat + roundUp length.toNat ≤ USER_SPACE_END
  | .brk addr => brkInUser M s addr
  | .elsewhere m => m.2 = s.mem.2

theorem Inside.step {e : Event (μ × List Op)} (h : Inside s) (huser : s.inUser M g e)
    (hs : s.step M.logged g e = some t) : Inside t := by
  cases e with
  | mmap c =>
    obtain ⟨⟨r, u⟩, hm, rfl⟩ := map_eq_some_iff.mp hs
    exact h.sysMmap (of_decide_eq_true huser) hm
  | munmap addr length =>
    obtain ⟨⟨r, u⟩, hm, rfl⟩ := map_eq_some_iff.mp hs
    exact h.sysMunmap (of_decide_eq_true huser) hm
  | mprotect addr length prot =>
    obtain ⟨⟨r, u⟩, hm, rfl⟩ := map_eq_some_iff.mp hs
    exact h.sysMprotect (of_decide_eq_true huser) hm
  | brk addr =>
    obtain ⟨⟨r, u⟩, hm, rfl⟩ := map_eq_some_iff.mp hs
    exact h.sysBrk huser hm
  | elsewhere m =>
    cases hs
    have hlog : m.2 = s.mem.2 := of_decide_eq_true huser
    refine { h with log := ?_ }
    change UserOnly m.2
    rw [hlog]
    exact h.log

/-- The sums that a call forms of addresses and lengths: rounding up, the ends of regions, the framebuffer's frames and
    the next region. The pages of a region are sums below its end. -/
def State.sums (g : Gop) (s : State (μ × List Op)) : Event (μ × List Op) → List (UInt64 × UInt64)
  | .mmap c =>
    [(c.length, PAGE)] ++ (if c.isFixed ∨ c.isFixedNoreplace then [(c.addr, pageAlignUp c.length), (c.addr, c.len g)]
      else []) ++
      (match c.framebuffer g with
        | some (fbPhys, _) => [(fbPhys, c.offset), (fbPhys + c.offset, c.len g)]
        | none => []) ++
      (if c.atAddr g then [] else
        [(s.pcb.nextVa, c.len g), (s.pcb.nextVa + c.len g, PAGE), (s.pcb.nextVa + c.len g + PAGE, PAGE)])
  | .munmap addr length => [(length, PAGE), (addr, pageAlignUp length)]
  | .mprotect addr length _ => [(length, PAGE), (addr, pageAlignUp length)]
  | .brk addr => if s.pcb.brkAsks addr then [] else [(addr, PAGE)]
  | .elsewhere _ => []

def Exact (x : UInt64 × UInt64) : Prop := x.1.toNat + x.2.toNat < 2 ^ 64

theorem exact_page {a : Nat} (h : a + roundUp length.toNat ≤ USER_SPACE_END) : Exact (length, PAGE) := by
  have hle := le_roundUp length.toNat
  unfold USER_SPACE_END at h
  change length.toNat + 4096 < 2 ^ 64
  omega

theorem exact_of_fits (h : Fits va len) : Exact (va, len) :=
  lt_of_le_of_lt h (by decide)

theorem exact_range (h : addr.toNat + roundUp length.toNat ≤ USER_SPACE_END) :
    ∀ x ∈ [(length, PAGE), (addr, pageAlignUp length)], Exact x := by
  simp only [mem_cons, not_mem_nil, or_false]
  rintro x (rfl | rfl)
  · exact exact_page h
  · exact exact_of_fits (fits_pageAlignUp h)

theorem len_le (c : MmapArgs) : (c.len g).toNat ≤ (pageAlignUp c.length).toNat := by
  unfold MmapArgs.len
  split
  · exact safeLen_le c _
  · exact le_refl _

theorem exact_mmap (h : s.pcb.mmapInUser g c) : ∀ x ∈ s.sums g (.mmap c), Exact x := by
  have hle := len_le (g := g) c
  rw [h.toNat_len] at hle
  have hround := h.roundUp_le
  obtain ⟨hfixed, hnext, hfb⟩ := h
  intro x hx
  simp only [State.sums, mem_append] at hx
  rcases hx with ((hx | hx) | hx) | hx
  · obtain rfl := mem_singleton.mp hx
    exact exact_page hround
  · split at hx
    · rename_i hat
      simp only [mem_cons, not_mem_nil, or_false] at hx
      rcases hx with rfl | rfl
      · exact exact_of_fits (fits_pageAlignUp (hfixed hat))
      · exact exact_of_fits ((Nat.add_le_add_left hle _).trans (hfixed hat))
    · cases hx
  · unfold MmapArgs.fbFits at hfb
    split at hx
    · rename_i fbPhys fbSize hbuf
      rw [hbuf] at hfb
      have hfb := of_decide_eq_true hfb
      have hsum : (fbPhys + c.offset).toNat = fbPhys.toNat + c.offset.toNat := Word.toNat_add_of_lt (by omega)
      simp only [mem_cons, not_mem_nil, or_false] at hx
      rcases hx with rfl | rfl
      · change fbPhys.toNat + c.offset.toNat < 2 ^ 64
        omega
      · change (fbPhys + c.offset).toNat + (c.len g).toNat < 2 ^ 64
        omega
    · cases hx
  · split at hx
    · cases hx
    rename_i hat
    have hrange := hnext (Bool.eq_false_iff.mpr hat)
    have hfit : Fits s.pcb.nextVa (c.len g) := (Nat.add_le_add_left hle _).trans hrange
    have hsum := toNat_add_of_user hfit
    unfold USER_SPACE_END at hrange
    have hpage : (s.pcb.nextVa + c.len g + PAGE).toNat = s.pcb.nextVa.toNat + (c.len g).toNat + 4096 := by
      rw [← hsum]
      exact Word.toNat_add_of_lt (by change _ + 4096 < 2 ^ 64; omega)
    simp only [mem_cons, not_mem_nil, or_false] at hx
    rcases hx with rfl | rfl | rfl
    · exact exact_of_fits hfit
    · change (s.pcb.nextVa + c.len g).toNat + 4096 < 2 ^ 64
      omega
    · change (s.pcb.nextVa + c.len g + PAGE).toNat + 4096 < 2 ^ 64
      omega

theorem exact_sums {e : Event (μ × List Op)} (h : s.inUser M g e) : ∀ x ∈ s.sums g e, Exact x := by
  cases e with
  | mmap c => exact exact_mmap (of_decide_eq_true h)
  | munmap addr length => exact exact_range (of_decide_eq_true h)
  | mprotect addr length prot => exact exact_range (of_decide_eq_true h)
  | brk addr =>
    intro x hx
    rw [State.sums] at hx
    split_ifs at hx with hasks
    · cases hx
    obtain rfl := mem_singleton.mp hx
    have haddr := ((of_decide_eq_true h).resolve_left hasks).1
    unfold USER_SPACE_END at haddr
    change addr.toNat + 4096 < 2 ^ 64
    omega
  | elsewhere m =>
    intro x hx
    cases hx

end Calls

/-- In every run in which each call names pages of user space only: no entry at or above the bound was made, changed or
    taken away, no frame was freed that such an entry led to, every VMA is a nonempty range below the bound, and no sum of
    the next such call wraps. -/
theorem user_confined {μ : Type} (M : Memory μ) (g : Gop) {s₀ s : State (μ × List Op)} (h0 : Inside s₀)
    (h : Reach (fun s e t => s.step M.logged g e = some t) (fun s e => s.inUser M g e = true) s₀ s) :
    UserOnly s.mem.2 ∧ (∀ v ∈ s.pcb.vmas, v.start < v.stop ∧ v.stop.toNat ≤ USER_SPACE_END) ∧
      ∀ e, s.inUser M g e = true → ∀ x ∈ s.sums g e, Exact x := by
  have hinside : Inside s := Reach.invariant h0 (fun _ _ _ hs huser hstep => hs.step huser hstep) h
  exact ⟨hinside.log, hinside.vmas, fun e he => exact_sums he⟩

theorem inside_fresh : Inside (⟨freshPcb [], (frames, [])⟩ : State (Flat × List Op)) :=
  ⟨by simp [UserOnly], by simp [freshPcb], by decide, by decide⟩

/-- Maps two pages, takes them away again, asks where the heap ends, grows it by two pages, protects one and lets the heap
    shrink by it. -/
def userCalls : List (Event (Flat × List Op)) :=
  [.mmap (anonCall 0x20000 0x2000 MAP_FIXED), .munmap 0x20000 0x2000, .brk 0, .brk 0xA000,
    .mprotect 0x8000 0x1000 PROT_READ, .brk 0x9000]

def userRun : Option (State (Flat × List Op)) :=
  Reach.run (fun s e => s.step flat.logged noFramebuffer e) (fun s e => s.inUser flat noFramebuffer e)
    ⟨freshPcb [], (frames, [])⟩ userCalls

theorem userRun_log : userRun.map (·.mem.2.length) = some 11 := by decide +kernel

theorem user_confined_calls : ∃ s, userRun = some s ∧ s.mem.2.length = 11 ∧ UserOnly s.mem.2 := by
  obtain ⟨s, hs, hlen⟩ := map_eq_some_iff.mp userRun_log
  exact ⟨s, hs, hlen, (user_confined flat noFramebuffer inside_fresh (Reach.of_run userCalls .start hs)).1⟩

/-- The memory of a process whose page tables also map a page of the kernel, as every process's do. -/
def withKernelPage : Flat := ⟨[0x100000], [((0x1000, 0xFFFF800000000000), 0x200000, PageFlags.WRITE)]⟩

theorem munmap_kernel_log :
    (State.step flat.logged noFramebuffer ⟨freshPcb [], (withKernelPage, [])⟩ (.munmap 0xFFFF800000000000 0x1000)).map
      (·.mem.2) = some [.unmap 0x1000 0xFFFF800000000000 (some 0x200000), .free 0x200000] := by
  decide +kernel

/-- A process with no VMA at all takes a kernel page away and frees its frame. -/
theorem munmap_reaches_kernel : Inside (⟨freshPcb [], (withKernelPage, [])⟩ : State (Flat × List Op)) ∧
    ∃ s : State (Flat × List Op), Reach (fun s e t => s.step flat.logged noFramebuffer e = some t) (fun _ _ => True)
      ⟨freshPcb [], (withKernelPage, [])⟩ s ∧ ¬UserOnly s.mem.2 ∧ Op.free 0x200000 ∈ s.mem.2 := by
  refine ⟨⟨by simp [UserOnly], by simp [freshPcb], by decide, by decide⟩, ?_⟩
  obtain ⟨s, hs, hlog⟩ := map_eq_some_iff.mp munmap_kernel_log
  refine ⟨s, .step _ .start trivial hs, fun huser => ?_, by rw [hlog]; decide⟩
  rw [hlog] at huser
  have habove : (0xFFFF800000000000 : UInt64).toNat < USER_SPACE_END := huser _ mem_cons_self
  exact absurd habove (by decide)

end Moxide.Mmap
