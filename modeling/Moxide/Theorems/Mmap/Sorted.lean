import Moxide.Lib.Ranges
import Moxide.Lib.Reach
import Moxide.Mmap

/-! What the operations on a VMA list keep. An entry may be empty, as the heap is after it has shrunk to its base. -/

namespace Moxide.Mmap
open Lib List Option
open UInt64 (le_iff_toNat_le lt_iff_toNat_lt)

abbrev Tidy (vmas : List Vma) : Prop := Ranges (fun v : Vma => v.start.toNat) (fun v => v.stop.toNat) vmas

def Vma.Off (a b : UInt64) (v : Vma) : Prop := (v.start < a ∧ v.stop ≤ a) ∨ b ≤ v.start

instance (a b : UInt64) (v : Vma) : Decidable (v.Off a b) := inferInstanceAs (Decidable (_ ∨ _))

variable {v : Vma} {vmas : List Vma} {addr stop base brk : UInt64}

theorem Vma.Off.mono {a b c : UInt64} (h : v.Off a b) (hcb : c ≤ b) : v.Off a c :=
  h.imp_right (UInt64.le_trans hcb)

theorem Vma.off_of_outside {a b : UInt64} (hv : v.start ≤ v.stop) (hne : ¬(v.start = a ∧ v.stop = a))
    (hout : v.stop ≤ a ∨ b ≤ v.start) : v.Off a b := by
  refine hout.imp_left fun hle => ⟨?_, hle⟩
  rcases UInt64.lt_or_eq_of_le (UInt64.le_trans hv hle) with hlt | heq
  · exact hlt
  · exact absurd ⟨heq, UInt64.le_antisymm hle (heq ▸ hv)⟩ hne

section
variable (h : Tidy vmas)
include h

theorem insertVma_split :
    ∃ a b, vmas = a ++ b ∧ insertVma vmas v = a ++ v :: b ∧ (∀ w ∈ a, w.start < v.start) ∧
      ∀ w ∈ b, v.start ≤ w.start := by
  let p : Vma → Bool := fun w => w.start < v.start
  have hsplit : vmas = vmas.takeWhile p ++ vmas.dropWhile p := takeWhile_append_dropWhile.symm
  have ha : ∀ w ∈ vmas.takeWhile p, p w := fun w hw => mem_takeWhile_imp hw
  have hb : ∀ w ∈ vmas.dropWhile p, p w = false := by
    -- the first entry dropped starts at `v` or above it, and the others start no lower
    cases hd : vmas.dropWhile p with
    | nil => simp
    | cons w ws =>
      have hw : p w = false := by simpa [hd] using head_dropWhile_not p (l := vmas) (by simp [hd])
      have hsorted := h.sorted.sublist (dropWhile_sublist p)
      rw [hd] at hsorted
      intro u hu
      rcases mem_cons.mp hu with rfl | hu
      · exact hw
      · have hwu := (pairwise_cons.mp hsorted).1 u hu
        simp only [p, decide_eq_false_iff_not, lt_iff_toNat_lt] at hw ⊢
        omega
  refine ⟨_, _, hsplit, ?_, fun w hw => of_decide_eq_true (ha w hw), fun w hw => ?_⟩
  · have hins := insertIdx_partitionPoint ha hb v
    rw [← hsplit] at hins
    exact hins
  · exact UInt64.not_lt.mp (of_decide_eq_false (hb w hw))

theorem Tidy.insertVma (hv : v.start ≤ v.stop) (hoff : ∀ w ∈ vmas, w.Off v.start v.stop) : Tidy (insertVma vmas v) := by
  obtain ⟨a, b, rfl, hins, ha, hb⟩ := insertVma_split (v := v) h
  rw [hins]
  refine h.insert (le_iff_toNat_le.mp hv) (fun w hw => ?_) fun w hw => ?_
  · rcases hoff w (mem_append_left _ hw) with ⟨_, hle⟩ | hle
    · exact le_iff_toNat_le.mp hle
    · exact absurd (UInt64.le_trans hv hle) (UInt64.not_le.mpr (ha w hw))
  · rcases hoff w (mem_append_right _ hw) with ⟨hlt, _⟩ | hle
    · exact absurd (hb w hw) (UInt64.not_le.mpr hlt)
    · exact le_iff_toNat_le.mp hle

theorem Tidy.removeVma (addr len : UInt64) : Tidy (removeVma vmas addr len) :=
  h.sublist filter_sublist

theorem Tidy.protect (addr len : UInt64) (prot : UInt32) : Tidy (vmas.map (Vma.protect addr len prot)) := by
  refine h.map (fun v => ?_) fun v => ?_ <;> unfold Vma.protect <;> split <;> rfl

end

/-! ### Carving -/

def Vma.pieces (addr stop : UInt64) (v : Vma) : List Vma :=
  if v.stop ≤ addr ∨ stop ≤ v.start then [v]
  else if addr ≤ v.start ∧ v.stop ≤ stop then []
  else if v.start < addr ∧ stop < v.stop then [{ v with stop := addr }, v.tail stop]
  else if v.start < addr then [{ v with stop := addr }]
  else [v.tail stop]

theorem carveLoop_eq (addr stop : UInt64) (vmas : List Vma) :
    ∀ done, carveLoop addr stop done vmas = done ++ vmas.flatMap (Vma.pieces addr stop) := by
  induction vmas with
  | nil => simp [carveLoop]
  | cons v rest ih =>
    intro done
    rw [flatMap_cons, carveLoop, Vma.pieces]
    split_ifs <;> simp [ih]

theorem Vma.mem_pieces {w : Vma} (hw : w ∈ v.pieces addr stop) :
    v.start ≤ w.start ∧ w.stop ≤ v.stop ∧ (w = v ∨ w.start < w.stop) ∧ (w.stop ≤ addr ∨ stop ≤ w.start) := by
  unfold Vma.pieces at hw
  split_ifs at hw with hout <;> simp only [mem_cons, not_mem_nil, or_false] at hw
  · subst hw
    exact ⟨UInt64.le_refl _, UInt64.le_refl _, .inl rfl, hout⟩
  all_goals simp only [lt_iff_toNat_lt, le_iff_toNat_le] at *
  · rcases hw with rfl | rfl <;> simp only [Vma.tail] <;> omega
  · subst hw
    dsimp only
    omega
  · subst hw
    simp only [Vma.tail]
    omega

theorem Vma.tidy_pieces (hlt : addr < stop) (hv : v.start ≤ v.stop) : Tidy (v.pieces addr stop) := by
  constructor
  · intro w hw
    obtain ⟨-, -, rfl | hlt, -⟩ := Vma.mem_pieces hw
    · exact le_iff_toNat_le.mp hv
    · exact le_of_lt (lt_iff_toNat_lt.mp hlt)
  · unfold Vma.pieces
    split_ifs <;> simp [Vma.tail, le_of_lt (lt_iff_toNat_lt.mp hlt)]

theorem Tidy.carve (h : Tidy vmas) (hlt : addr < stop) : Tidy (carveLoop addr stop [] vmas) := by
  rw [carveLoop_eq]
  refine h.flatMap (fun v hv => Vma.tidy_pieces hlt (le_iff_toNat_le.mpr (h.le v hv))) fun v _ w hw => ?_
  obtain ⟨hlo, hhi, -⟩ := Vma.mem_pieces hw
  exact ⟨le_iff_toNat_le.mp hlo, le_iff_toNat_le.mp hhi⟩

theorem Tidy.carve_off (h : Tidy vmas)
    (hne : ∀ v ∈ vmas, ¬(v.start = addr ∧ v.stop = addr)) {w : Vma} (hw : w ∈ carveLoop addr stop [] vmas) :
    w.Off addr stop := by
  rw [carveLoop_eq] at hw
  obtain ⟨v, hv, hw⟩ := mem_flatMap.mp hw
  obtain ⟨-, -, rfl | hlt, hout⟩ := Vma.mem_pieces hw
  · exact Vma.off_of_outside (le_iff_toNat_le.mpr (h.le w hv)) (hne w hv) hout
  · refine Vma.off_of_outside (UInt64.le_of_lt hlt) (fun ⟨hstart, hstop⟩ => ?_) hout
    rw [hstart, hstop] at hlt
    exact UInt64.lt_irrefl _ hlt

theorem setHeapEnd_split {vmas' : List Vma} (h : setHeapEnd base brk vmas = some vmas') :
    ∃ a v b, vmas = a ++ v :: b ∧ v.start = base ∧ vmas' = a ++ { v with stop := brk } :: b ∧
      vmas.eraseP (isHeapAt base) = a ++ b := by
  induction vmas generalizing vmas' with
  | nil => cases h
  | cons v vs ih =>
    unfold setHeapEnd at h
    split at h
    · rename_i hv
      cases h
      refine ⟨[], v, vs, rfl, ?_, rfl, by simp [hv]⟩
      simp only [isHeapAt, decide_eq_true_eq] at hv
      exact hv.2
    · rename_i hv
      obtain ⟨ws, hws, rfl⟩ := map_eq_some_iff.mp h
      obtain ⟨a, u, b, rfl, hstart, rfl, herase⟩ := ih hws
      exact ⟨v :: a, u, b, rfl, hstart, rfl, by simp [hv, herase]⟩

theorem eraseP_of_setHeapEnd_none (h : setHeapEnd base brk vmas = none) : vmas.eraseP (isHeapAt base) = vmas := by
  induction vmas with
  | nil => rfl
  | cons v vs ih =>
    unfold setHeapEnd at h
    split at h
    · cases h
    · rename_i hv
      simp [hv, ih (map_eq_none_iff.mp h)]

theorem Tidy.setHeapEnd {vmas' : List Vma} (h : Tidy vmas) (hset : setHeapEnd base brk vmas = some vmas') (hle : base ≤ brk)
    (hoff : ∀ w ∈ vmas.eraseP (isHeapAt base), w.Off base brk) : Tidy vmas' := by
  obtain ⟨a, v, b, rfl, hstart, rfl, herase⟩ := setHeapEnd_split hset
  rw [herase] at hoff
  have hparts := pairwise_append.mp h.apart
  have hab : Tidy (a ++ b) := h.sublist ((sublist_cons_self v b).append_left a)
  refine hab.insert (hstart ▸ le_iff_toNat_le.mp hle) (fun w hw => ?_) fun w hw => ?_
  · exact hparts.2.2 w hw v mem_cons_self
  · have hvw := (pairwise_cons.mp hparts.2.1).1 w hw
    have hv := h.le v (mem_append_right _ mem_cons_self)
    rcases hoff w (mem_append_right _ hw) with ⟨hlt, _⟩ | hge
    · rw [lt_iff_toNat_lt, ← hstart] at hlt
      omega
    · exact le_iff_toNat_le.mp hge

section
variable (h : Tidy vmas) (hle : base ≤ brk) (hoff : ∀ w ∈ vmas.eraseP (isHeapAt base), w.Off base brk)
include h hle hoff

theorem Tidy.coalesce : Tidy (coalesceOrInsertHeapVma vmas base brk) := by
  unfold coalesceOrInsertHeapVma
  split
  · rename_i hset
    exact h.setHeapEnd hset hle hoff
  · rename_i hset
    rw [eraseP_of_setHeapEnd_none hset] at hoff
    exact h.insertVma hle hoff

theorem Tidy.trim : Tidy (trimHeapVma vmas base brk) := by
  unfold trimHeapVma
  cases hset : Mmap.setHeapEnd base brk vmas with
  | none => exact h
  | some vmas' => exact h.setHeapEnd hset hle hoff

end

/-! The VMA list stays sorted and disjoint as long as `sys_mmap` at `next_va` and `sys_brk`, which look at no VMA, find their
    region vacant and no region wraps. -/

open Lib (Ranges Reach)
open UInt64 (le_iff_toNat_le lt_iff_toNat_lt ofNat toNat_add)

structure SortedDisjoint (vmas : List Vma) : Prop where
  sorted : vmas.Pairwise fun v w => v.start ≤ w.start
  disjoint : vmas.Pairwise fun v w => ∀ addr, ¬(v.contains addr ∧ w.contains addr)

theorem Tidy.sortedDisjoint {vmas : List Vma} (h : Tidy vmas) : SortedDisjoint vmas := by
  refine ⟨h.sorted.imp le_iff_toNat_le.mpr, h.disjoint.imp fun hvw addr hc => hvw addr.toNat ?_⟩
  simp only [Vma.contains, decide_eq_true_eq, lt_iff_toNat_lt, le_iff_toNat_le] at hc
  exact hc

theorem SortedDisjoint.tidy {vmas : List Vma} (h : SortedDisjoint vmas) (hne : ∀ v ∈ vmas, v.start < v.stop) :
    Tidy vmas := by
  refine Ranges.of_sorted (fun v hv => lt_iff_toNat_lt.mp (hne v hv))
    (h.sorted.imp le_iff_toNat_le.mp) (h.disjoint.imp fun {v w} hvw x hx => hvw (ofNat x) ?_)
  have hx64 : (ofNat x).toNat = x :=
    UInt64.toNat_ofNat_of_lt' (lt_trans hx.1.2 v.stop.toNat_lt)
  simp only [Vma.contains, decide_eq_true_eq, lt_iff_toNat_lt, le_iff_toNat_le, hx64]
  exact hx

def MmapArgs.len (g : Gop) (c : MmapArgs) : UInt64 :=
  match c.framebuffer g with
  | some (_, fbSize) => c.safeLen fbSize
  | none => pageAlignUp c.length

/-- Whether a call places its region at the address given; otherwise it does so at `next_va`. -/
def MmapArgs.atAddr (g : Gop) (c : MmapArgs) : Bool :=
  match c.framebuffer g with
  | some _ => c.isFixed
  | none => c.isFixed || c.isFixedNoreplace

/-- The region of the call has an address and does not wrap. At `next_va` no VMA reaches or starts in it; at the
    address given no VMA stands that is empty. -/
def Pcb.mmapClear (g : Gop) (p : Pcb) (c : MmapArgs) : Bool :=
  if c.atAddr g then
    c.addr < c.addr + c.len g ∧ ∀ v ∈ p.vmas, ¬(v.start = c.addr ∧ v.stop = c.addr)
  else p.nextVa < p.nextVa + c.len g ∧ ∀ v ∈ p.vmas, v.Off p.nextVa (p.nextVa + c.len g)

/-- The end of the heap does not wrap, and no VMA but the heap reaches or starts below it. -/
def Pcb.brkClear (p : Pcb) (addr : UInt64) : Bool :=
  addr ≤ pageAlignUp addr ∧ ∀ v ∈ p.vmas.eraseP (isHeapAt p.brkBase), v.Off p.brkBase (pageAlignUp addr)

def State.clear {μ : Type} (g : Gop) (s : State μ) : Event μ → Bool
  | .mmap c => c.length = 0 ∨ s.pcb.mmapClear g c
  | .brk addr => addr < s.pcb.brkBase ∨ pageAlignUp addr = s.pcb.brk ∨ s.pcb.brkClear addr
  | _ => true

/-! ### The calls -/

structure Sound (p : Pcb) : Prop where
  tidy : Tidy p.vmas
  heap : p.brkBase ≤ p.brk

theorem Sound.setBrkBase {p : Pcb} (h : Tidy p.vmas) (endOfBss : UInt64) : Sound (p.setBrkBase endOfBss) :=
  ⟨h, UInt64.le_refl _⟩

structure Placed (p : Pcb) (va len : UInt64) : Prop where
  sound : Sound p
  lt : va < va + len
  off : ∀ v ∈ p.vmas, v.Off va (va + len)

theorem Placed.insert {p : Pcb} {va len : UInt64} (h : Placed p va len) {v : Vma} (hstart : v.start = va)
    (hstop : v.stop = va + len) : Sound { p with vmas := insertVma p.vmas v } := by
  refine ⟨h.sound.tidy.insertVma ?_ ?_, h.sound.heap⟩
  · rw [hstart, hstop]
    exact UInt64.le_of_lt h.lt
  · rw [hstart, hstop]
    exact h.off

theorem Placed.bump {p : Pcb} {len : UInt64} (h : Sound p) (hlt : p.nextVa < p.nextVa + len)
    (hoff : ∀ v ∈ p.vmas, v.Off p.nextVa (p.nextVa + len)) : Placed (p.bump len).2 (p.bump len).1 len :=
  ⟨⟨h.tidy, h.heap⟩, hlt, hoff⟩

theorem Placed.vacant {p : Pcb} {addr len : UInt64} (h : Sound p) (hlt : addr < addr + len)
    (hne : ∀ v ∈ p.vmas, ¬(v.start = addr ∧ v.stop = addr)) (hfree : p.collision addr len = false) :
    Placed p addr len := by
  refine ⟨h, hlt, fun v hv => ?_⟩
  refine Vma.off_of_outside (le_iff_toNat_le.mpr (h.tidy.le v hv)) (hne v hv) ?_
  have hv' := List.any_eq_false.mp hfree v hv
  simp only [decide_eq_true_eq, not_and_or, UInt64.not_lt] at hv'
  exact hv'.symm

theorem saturatingAdd_of_lt {a b : UInt64} (h : a < a + b) : saturatingAdd a b = a + b := by
  have hsum := toNat_add a b
  have hb := b.toNat_lt
  rw [lt_iff_toNat_lt] at h
  unfold saturatingAdd
  rw [if_pos (by omega)]

section Calls
variable {μ : Type} {M : Memory μ} {g : Gop} {s t : State μ} {c : MmapArgs} {len fbPhys fbSize length newBrk : UInt64}

variable {addr va : UInt64} {r : Int64}

theorem removeVmaInner_pcb {stop : UInt64} (h : removeVmaInner M s addr stop = some t) :
    t.pcb = { s.pcb with vmas := carveLoop addr stop [] s.pcb.vmas } := by
  obtain ⟨m, -, rfl⟩ := map_eq_some_iff.mp h
  rfl

section
variable (h : Sound s.pcb)
include h

theorem Placed.removeVmaInner (hlt : addr < addr + len) (hne : ∀ v ∈ s.pcb.vmas, ¬(v.start = addr ∧ v.stop = addr))
    (hrem : removeVmaInner M s addr (saturatingAdd addr len) = some t) : Placed t.pcb addr len := by
  rw [saturatingAdd_of_lt hlt] at hrem
  rw [removeVmaInner_pcb hrem]
  exact ⟨⟨h.tidy.carve hlt, h.heap⟩, hlt, fun v hv => h.tidy.carve_off hne hv⟩

theorem Placed.placePhys (hfb : c.framebuffer g = some (fbPhys, fbSize)) (hclear : s.pcb.mmapClear g c)
    (haddr : c.isFixed → c.addr ≠ 0) (hp : placePhys M s c (c.safeLen fbSize) = some (va, t)) :
    Placed t.pcb va (c.safeLen fbSize) := by
  simp only [Pcb.mmapClear, MmapArgs.atAddr, MmapArgs.len, hfb] at hclear
  unfold Mmap.placePhys at hp
  split at hp
  · rename_i hfixed
    rw [if_neg (haddr hfixed)] at hp
    obtain ⟨u, hrem, heq⟩ := map_eq_some_iff.mp hp
    cases heq
    simp only [hfixed, if_true, decide_eq_true_eq] at hclear
    exact Placed.removeVmaInner h hclear.1 hclear.2 hrem
  · rename_i hfixed
    cases hp
    simp only [hfixed, Bool.false_eq_true, if_false, decide_eq_true_eq] at hclear
    exact Placed.bump h hclear.1 hclear.2

theorem Placed.place (hfb : c.framebuffer g = none) (hclear : s.pcb.mmapClear g c)
    (hfree : c.isFixedNoreplace → s.pcb.collision c.addr (pageAlignUp c.length) = false)
    (hp : place M s c (pageAlignUp c.length) = some (va, t)) : Placed t.pcb va (pageAlignUp c.length) := by
  simp only [Pcb.mmapClear, MmapArgs.atAddr, MmapArgs.len, hfb] at hclear
  unfold Mmap.place at hp
  split at hp
  · rename_i hfixed
    simp only [hfixed, Bool.or_eq_true, if_true, decide_eq_true_eq] at hclear
    split at hp
    · rename_i hnorep
      cases hp
      exact Placed.vacant h hclear.1 hclear.2 (hfree hnorep)
    · obtain ⟨u, hrem, heq⟩ := map_eq_some_iff.mp hp
      cases heq
      exact Placed.removeVmaInner h hclear.1 hclear.2 hrem
  · rename_i hfixed
    cases hp
    simp only [Bool.or_eq_true, hfixed, if_false, decide_eq_true_eq] at hclear
    exact Placed.bump h hclear.1 hclear.2

theorem Sound.mmapPhys {pa : UInt64} (hfb : c.framebuffer g = some (fbPhys, fbSize)) (hclear : s.pcb.mmapClear g c)
    (haddr : c.isFixed → c.addr ≠ 0) (hm : mmapPhys M s c (c.safeLen fbSize) pa = some (r, t)) :
    Sound t.pcb := by
  obtain ⟨⟨va, u⟩, hplace, hrest⟩ := bind_eq_some_iff.mp hm
  have hplaced := Placed.placePhys h hfb hclear haddr hplace
  dsimp only at hrest
  split at hrest
  · cases hrest
    exact hplaced.sound
  · obtain ⟨m, -, heq⟩ := map_eq_some_iff.mp hrest
    cases heq
    exact hplaced.insert rfl rfl

end

theorem Sound.mmapAnon (h : Placed s.pcb va len) (hm : mmapAnon M s c va len = some (r, t)) : Sound t.pcb := by
  have hins := h.insert (v := c.anonVma va len) rfl rfl
  obtain ⟨⟨m, out⟩, -, hrest⟩ := bind_eq_some_iff.mp hm
  cases out with
  | none =>
    cases hrest
    exact hins
  | some out =>
    obtain ⟨m', -, heq⟩ := map_eq_some_iff.mp hrest
    cases heq
    exact ⟨hins.tidy.removeVma va len, hins.heap⟩

section
variable (h : Sound s.pcb)
include h

theorem Sound.mmapPlain (hfb : c.framebuffer g = none) (hclear : s.pcb.mmapClear g c)
    (hfree : c.isFixedNoreplace → s.pcb.collision c.addr (pageAlignUp c.length) = false)
    (hm : mmapPlain M s c (pageAlignUp c.length) = some (r, t)) : Sound t.pcb := by
  obtain ⟨⟨va, u⟩, hplace, hrest⟩ := bind_eq_some_iff.mp hm
  have hplaced := Placed.place h hfb hclear hfree hplace
  dsimp only at hrest
  split at hrest
  · cases hrest
    exact hplaced.sound
  split at hrest
  · cases hrest
    exact hplaced.sound
  split at hrest
  · exact Sound.mmapAnon hplaced hrest
  · cases hrest
    exact hplaced.insert rfl rfl

theorem Sound.sysMmap (hclear : c.length = 0 ∨ s.pcb.mmapClear g c) (hm : sysMmap M g s c = some (r, t)) : Sound t.pcb := by
  unfold Mmap.sysMmap at hm
  dsimp only at hm
  split at hm
  · cases hm
    exact h
  rename_i hlen
  have hclear := hclear.resolve_left hlen
  split at hm
  · cases hm
    exact h
  split at hm
  · cases hm
    exact h
  split at hm
  · cases hm
    exact h
  rename_i haddr
  split at hm
  · cases hm
    exact h
  rename_i hcol
  split at hm
  · rename_i hfb
    split at hm
    · cases hm
      exact h
    · refine Sound.mmapPhys h hfb hclear (fun hfixed hzero => ?_) hm
      exact haddr ⟨.inl hfixed, .inl hzero⟩
  · rename_i hfb
    refine Sound.mmapPlain h hfb hclear (fun hnorep => ?_) hm
    exact Bool.eq_false_iff.mpr fun hc => hcol ⟨hnorep, hc⟩

theorem Sound.sysMunmap (hm : sysMunmap M s addr length = some (r, t)) : Sound t.pcb := by
  unfold Mmap.sysMunmap at hm
  split at hm
  · cases hm
    exact h
  split at hm
  · cases hm
    exact h
  · obtain ⟨m, -, heq⟩ := map_eq_some_iff.mp hm
    cases heq
    exact ⟨h.tidy.removeVma _ _, h.heap⟩

theorem Sound.sysMprotect {prot : UInt32} (hm : sysMprotect M s addr length prot = some (r, t)) : Sound t.pcb := by
  unfold Mmap.sysMprotect at hm
  split at hm
  · cases hm
    exact h
  split at hm
  · cases hm
    exact h
  split at hm
  · cases hm
    exact h
  · obtain ⟨m, -, heq⟩ := map_eq_some_iff.mp hm
    cases heq
    exact ⟨h.tidy.protect _ _ _, h.heap⟩

end

/-! ### The heap -/

theorem mem_pagesOf {a b x : UInt64} (h : x ∈ pagesOf a b) : a ≤ x ∧ x < b := by
  obtain ⟨i, hi, rfl⟩ := List.mem_map.mp h
  have hi := mem_range.mp hi
  have hb := b.toNat_lt
  have hlt : i * 4096 < 2 ^ 64 := by omega
  have hoff : (ofNat (i * 4096)).toNat = i * 4096 := UInt64.toNat_ofNat_of_lt' hlt
  have hsum := toNat_add a (ofNat (i * 4096))
  rw [le_iff_toNat_le, lt_iff_toNat_lt, hsum]
  omega

theorem mapFresh_out {cr3 : UInt64} {flags : PageFlags} {m' : μ} {k : Nat} {pages : List UInt64} :
    ∀ {m : μ} {n : Nat}, mapFresh M cr3 flags m pages n = some (m', some (k, va)) → va ∈ pages := by
  induction pages with
  | nil =>
    intro m n h
    cases h
  | cons page rest ih =>
    intro m n h
    unfold mapFresh at h
    split at h
    · cases h
    · cases h
      exact mem_cons_self
    · split at h
      · cases h
      · exact mem_cons_of_mem _ (ih h)

variable (h : Sound s.pcb)
include h

theorem Sound.brkGrow (hlt : s.pcb.brk < newBrk)
    (hoff : ∀ v ∈ s.pcb.vmas.eraseP (isHeapAt s.pcb.brkBase), v.Off s.pcb.brkBase newBrk)
    (hm : brkGrow M s newBrk = some (r, t)) : Sound t.pcb := by
  unfold Mmap.brkGrow at hm
  dsimp only at hm
  split at hm
  · cases hm
    exact h
  obtain ⟨⟨m, out⟩, hmap, heq⟩ := map_eq_some_iff.mp hm
  cases heq
  -- wherever the heap ends now, it is between the old end and the new one
  suffices hreach : ∀ reached, s.pcb.brk ≤ reached → reached ≤ newBrk →
      Sound { s.pcb with vmas := coalesceOrInsertHeapVma s.pcb.vmas s.pcb.brkBase reached, brk := reached } by
    cases out with
    | none => exact hreach newBrk (UInt64.le_of_lt hlt) (UInt64.le_refl _)
    | some out =>
      have hpage := mem_pagesOf (mapFresh_out hmap)
      exact hreach out.2 hpage.1 (UInt64.le_of_lt hpage.2)
  intro reached hlo hhi
  have hle := UInt64.le_trans h.heap hlo
  exact ⟨h.tidy.coalesce hle fun v hv => (hoff v hv).mono hhi, hle⟩

theorem Sound.brkShrink (hle : s.pcb.brkBase ≤ newBrk)
    (hoff : ∀ v ∈ s.pcb.vmas.eraseP (isHeapAt s.pcb.brkBase), v.Off s.pcb.brkBase newBrk)
    (hm : brkShrink M s newBrk = some (r, t)) : Sound t.pcb := by
  obtain ⟨m, -, heq⟩ := map_eq_some_iff.mp hm
  cases heq
  exact ⟨h.tidy.trim hle hoff, hle⟩

theorem Sound.sysBrk (hclear : addr < s.pcb.brkBase ∨ pageAlignUp addr = s.pcb.brk ∨ s.pcb.brkClear addr)
    (hm : sysBrk M s addr = some (r, t)) : Sound t.pcb := by
  unfold Mmap.sysBrk at hm
  dsimp only at hm
  split at hm
  · cases hm
    exact h
  rename_i hearly
  simp only [not_or] at hearly
  have hbase := UInt64.not_lt.mp hearly.2.2.1
  rcases hclear with hlt | heq | hclear
  · exact absurd hlt hearly.2.2.1
  · rw [heq, if_neg (UInt64.lt_irrefl _), if_neg (UInt64.lt_irrefl _)] at hm
    cases hm
    exact h
  simp only [Pcb.brkClear, decide_eq_true_eq] at hclear
  have hle := UInt64.le_trans hbase hclear.1
  split at hm
  · rename_i hgrow
    exact Sound.brkGrow h hgrow hclear.2 hm
  split at hm
  · exact Sound.brkShrink h hle hclear.2 hm
  · cases hm
    exact ⟨h.tidy, hle⟩

theorem Sound.step {e : Event μ} (hclear : s.clear g e) (hs : s.step M g e = some t) : Sound t.pcb := by
  cases e with
  | mmap c =>
    obtain ⟨⟨r, u⟩, hm, rfl⟩ := map_eq_some_iff.mp hs
    exact Sound.sysMmap h (of_decide_eq_true hclear) hm
  | munmap addr length =>
    obtain ⟨⟨r, u⟩, hm, rfl⟩ := map_eq_some_iff.mp hs
    exact Sound.sysMunmap h hm
  | mprotect addr length prot =>
    obtain ⟨⟨r, u⟩, hm, rfl⟩ := map_eq_some_iff.mp hs
    exact Sound.sysMprotect h hm
  | brk addr =>
    obtain ⟨⟨r, u⟩, hm, rfl⟩ := map_eq_some_iff.mp hs
    exact Sound.sysBrk h (of_decide_eq_true hclear) hm
  | elsewhere m =>
    cases hs
    exact h

end Calls

/-- From a process whose VMAs are nonempty, sorted and disjoint and whose heap has been set up, the list is sorted and
    disjoint after each call, if each finds its region clear. -/
theorem vmas_sorted_disjoint {μ : Type} (M : Memory μ) (g : Gop) {s₀ s : State μ} (h0 : SortedDisjoint s₀.pcb.vmas)
    (hne : ∀ v ∈ s₀.pcb.vmas, v.start < v.stop) (hheap : s₀.pcb.brkBase ≤ s₀.pcb.brk)
    (h : Reach (fun s e t => s.step M g e = some t) (fun s e => s.clear g e = true) s₀ s) :
    SortedDisjoint s.pcb.vmas := by
  have hsound : Sound s.pcb := Reach.invariant (I := fun s => Sound s.pcb) ⟨h0.tidy hne, hheap⟩
    (fun _ _ _ hs hclear hstep => hs.step hclear hstep) h
  exact hsound.tidy.sortedDisjoint

/-! ### A memory to run the calls on -/

/-- A stack of free frames, and the frame and flags of each mapped page, by root and page. -/
structure Flat where
  free : List UInt64
  entries : List ((UInt64 × UInt64) × UInt64 × PageFlags)
  deriving DecidableEq, Repr

def Flat.unmap (m : Flat) (cr3 va : UInt64) : Flat := { m with entries := m.entries.filter (·.1 ≠ (cr3, va)) }

def flat : Memory Flat where
  allocPage m := match m.free with
    | [] => some (none, m)
    | pa :: rest => some (some pa, { m with free := rest })
  freePage m pa := if pa ∈ m.free then none else some { m with free := pa :: m.free }
  mapPage m cr3 va pa flags :=
    let m := m.unmap cr3 va
    some { m with entries := ((cr3, va), pa, flags) :: m.entries }
  unmapPage := Flat.unmap
  virtToPhys m cr3 va := (m.entries.lookup (cr3, va)).map (·.1)

def noFramebuffer : Gop := ⟨fun _ => false, none⟩

def freshPcb (vmas : List Vma) : Pcb := ⟨vmas, 0x10000, 0x8000, 0x8000, 0x1000, ⟨fun _ => (RLIM_INFINITY, RLIM_INFINITY)⟩⟩

def frames : Flat := ⟨[0x100000, 0x101000, 0x102000, 0x103000, 0x104000, 0x105000], []⟩

def anonCall (addr length : UInt64) (flags : UInt32) : MmapArgs :=
  ⟨addr, length, PROT_READ ||| PROT_WRITE, flags ||| MAP_ANON, USIZE_MAX, 0⟩

/-- Maps three pages at a fixed address, one at `next_va`, one over the middle of the first three, and a heap page. -/
def carveCalls : List (Event Flat) :=
  [.mmap (anonCall 0x20000 0x3000 MAP_FIXED), .mmap (anonCall 0 1 0), .mmap (anonCall 0x21000 0x1000 MAP_FIXED),
    .brk 0x8001]

def carved : Option (State Flat) :=
  Reach.run (fun s e => s.step flat noFramebuffer e) (fun s e => s.clear noFramebuffer e) ⟨freshPcb [], frames⟩ carveCalls

theorem carved_vmas : carved.map (fun s => s.pcb.vmas.map fun v => (v.start, v.stop)) =
    some [(0x8000, 0x9000), (0x10000, 0x11000), (0x20000, 0x21000), (0x21000, 0x22000), (0x22000, 0x23000)] := by
  decide

theorem vmas_sorted_disjoint_carved : ∃ s, carved = some s ∧ s.pcb.vmas.length = 5 ∧ SortedDisjoint s.pcb.vmas := by
  obtain ⟨s, hs, hvmas⟩ := map_eq_some_iff.mp carved_vmas
  have hlen := congrArg List.length hvmas
  rw [length_map] at hlen
  exact ⟨s, hs, hlen, vmas_sorted_disjoint flat noFramebuffer ⟨List.Pairwise.nil, List.Pairwise.nil⟩ (by decide)
    (by decide) (Reach.of_run carveCalls .start hs)⟩

def aboveHeap : Vma := ⟨0x9000, 0xA000, PROT_READ, MAP_ANON, .anonymous, 0, false⟩

theorem brk_covers :
    ((⟨freshPcb [aboveHeap], frames⟩ : State Flat).step flat noFramebuffer (.brk 0xA000)).map (·.pcb.vmas) =
      some [heapVma 0x8000 0xA000, aboveHeap] := by
  decide

theorem vmas_overlap :
    (SortedDisjoint [aboveHeap] ∧ aboveHeap.contains (freshPcb [aboveHeap]).nextVa = false ∧
      aboveHeap.contains (freshPcb [aboveHeap]).brk = false) ∧
    ∃ s : State Flat, Reach (fun s e t => s.step flat noFramebuffer e = some t) (fun _ _ => True)
      ⟨freshPcb [aboveHeap], frames⟩ s ∧ ¬SortedDisjoint s.pcb.vmas := by
  refine ⟨⟨⟨pairwise_singleton _ _, pairwise_singleton _ _⟩, by decide, by decide⟩, ?_⟩
  obtain ⟨s, hs, hvmas⟩ := map_eq_some_iff.mp brk_covers
  refine ⟨s, .step _ .start trivial hs, fun h => ?_⟩
  have hdisj := h.disjoint
  rw [hvmas, pairwise_pair] at hdisj
  exact hdisj 0x9000 (by decide)

end Moxide.Mmap
