import Moxide.Lib.Chain
import Moxide.Slab

namespace Moxide.Slab
open Lib (Mem DList Chain)
open SlabHdr List

/-! ### Size classes -/

def objSize (k : Nat) : Nat := SIZE_CLASSES.getD k 0

def cap (k : Nat) : Nat := slotsPerPage (objSize k)

/-- The addresses of the slots of a slab. -/
def slotsOf (k page : Nat) : List Nat :=
  (List.range (cap k)).map fun i => page + (hdrOffset (objSize k) + i * objSize k)

/-- A slot holds a link, and the slots lie behind the header and in the page. -/
structure ClassFits (k : Nat) : Prop where
  link : 8 ≤ objSize k
  header : SLAB_HDR_RAW ≤ hdrOffset (objSize k)
  page : hdrOffset (objSize k) + cap k * objSize k ≤ PAGE_SIZE
  two : 2 ≤ cap k
  count : cap k < 2 ^ 16

theorem classFits {k : Nat} (hk : k < NUM_CACHES) : ClassFits k := by
  have h : ∀ k < NUM_CACHES, 8 ≤ objSize k ∧ SLAB_HDR_RAW ≤ hdrOffset (objSize k) ∧
      hdrOffset (objSize k) + cap k * objSize k ≤ PAGE_SIZE ∧ 2 ≤ cap k ∧ cap k < 2 ^ 16 := by decide +kernel
  obtain ⟨hlink, hheader, hpage, htwo, hcount⟩ := h k hk
  exact ⟨hlink, hheader, hpage, htwo, hcount⟩

section Slots
variable {k page a b : Nat}

theorem slot_bounds (hk : ClassFits k) (ha : a ∈ slotsOf k page) : page + 32 ≤ a ∧ a + objSize k ≤ page + 4096 := by
  obtain ⟨i, hi, rfl⟩ := mem_map.mp ha
  have hi := mem_range.mp hi
  have hheader := hk.header
  have hpage := hk.page
  have hle : (i + 1) * objSize k ≤ cap k * objSize k := Nat.mul_le_mul_right _ hi
  rw [Nat.add_mul] at hle
  unfold SLAB_HDR_RAW PAGE_SIZE at *
  omega

/-- Slots of one page do not overlap. -/
theorem slot_apart (ha : a ∈ slotsOf k page) (hb : b ∈ slotsOf k page) (hne : a ≠ b) :
    a + objSize k ≤ b ∨ b + objSize k ≤ a := by
  obtain ⟨i, -, rfl⟩ := mem_map.mp ha
  obtain ⟨j, -, rfl⟩ := mem_map.mp hb
  have hij : i ≠ j := fun h => hne (by rw [h])
  rcases Nat.lt_or_gt_of_ne hij with hlt | hlt
  · have hle : (i + 1) * objSize k ≤ j * objSize k := Nat.mul_le_mul_right _ hlt
    rw [Nat.add_mul] at hle
    exact .inl (by omega)
  · have hle : (j + 1) * objSize k ≤ i * objSize k := Nat.mul_le_mul_right _ hlt
    rw [Nat.add_mul] at hle
    exact .inr (by omega)

theorem nodup_slotsOf (hk : ClassFits k) : (slotsOf k page).Nodup := by
  refine List.Nodup.map_on ?_ nodup_range
  intro i _ j _ heq
  have hmul : i * objSize k = j * objSize k := by omega
  exact Nat.eq_of_mul_eq_mul_right (lt_of_lt_of_le (by decide) hk.link) hmul

theorem length_slotsOf : (slotsOf k page).length = cap k := by rw [slotsOf, length_map, length_range]

/-- The page of a slot is found from its address. -/
theorem pageBase_slot (hk : ClassFits k) (halign : page % 4096 = 0) (ha : a ∈ slotsOf k page) : pageBase a = page := by
  have hb := slot_bounds hk ha
  have hlink := hk.link
  unfold pageBase PAGE_SIZE
  omega

end Slots

/-! ### Pages -/

structure IsPage (p : Nat) : Prop where
  pos : p ≠ 0
  aligned : p % 4096 = 0
  fits : p + 4096 ≤ 2 ^ 64

theorem IsPage.apart {p q : Nat} (hp : IsPage p) (hq : IsPage q) (hne : p ≠ q) : p + 4096 ≤ q ∨ q + 4096 ≤ p := by
  have := hp.aligned
  have := hq.aligned
  omega

theorem load_store_page {m : Mem} {p q d e n k v : Nat} (hp : IsPage p) (hq : IsPage q) (hne : p ≠ q) (hd : d + n ≤ 4096)
    (he : e + k ≤ 4096) : (m.store (p + d) n v).load (q + e) k = m.load (q + e) k := by
  have := hp.apart hq hne
  exact Mem.load_store_ne (by omega)

/-- A pointer of the source: 0 is none. -/
def ptr (v : Nat) : Option Nat := if v = 0 then none else some v

@[simp] theorem ptr_zero : ptr 0 = none := rfl

theorem ptr_of_ne {v : Nat} (h : v ≠ 0) : ptr v = some v := if_neg h

theorem ptr_eq_some {v p : Nat} : ptr v = some p ↔ v = p ∧ p ≠ 0 := by
  unfold ptr
  split
  · rename_i h
    constructor
    · rintro ⟨⟩
    · rintro ⟨rfl, hp⟩
      exact absurd h hp
  rename_i h
  rw [Option.some.injEq]
  constructor
  · rintro rfl
    exact ⟨rfl, h⟩
  · exact And.left

theorem ptr_eq_none {v : Nat} : ptr v = none ↔ v = 0 := by
  unfold ptr
  split
  · rename_i h
    exact ⟨fun _ => h, fun _ => rfl⟩
  · rename_i h
    exact ⟨(fun heq => by cases heq), fun h0 => absurd h0 h⟩

/-! ### The lists -/

/-- The pages `l` are linked in both directions from `head`. -/
def Listed (m : Mem) (head : Nat) (l : List Nat) : Prop :=
  DList (fun p => ptr (next m p)) (fun p => ptr (prev m p)) none (ptr head) l

/-- The bytes of the links of some pages. -/
def Links (l : List Nat) (x : Nat) : Prop := ∃ p ∈ l, p ≤ x ∧ x < p + 16

section Lists
variable {m m' : Mem} {head p : Nat} {l l' l₁ l₂ : List Nat}

variable {q v b n : Nat}

theorem Listed.congr (h : Listed m head l) (hsame : ∀ q ∈ l, Mem.Same m m' q 16) : Listed m' head l := by
  refine DList.congr h (fun q hq => ?_) fun q hq => ?_
  · change ptr (m'.load q 8) = ptr (m.load q 8)
    rw [((hsame q hq).mono (b := q) (k := 8) le_rfl (by omega)).load_eq]
  · change ptr (m'.load (q + 8) 8) = ptr (m.load (q + 8) 8)
    rw [((hsame q hq).mono (b := q + 8) (k := 8) (by omega) (by omega)).load_eq]

theorem Listed.frame (h : Listed m head l) (hexc : Mem.Except m m' (Links l')) (hl : ∀ q ∈ l, IsPage q)
    (hl' : ∀ q ∈ l', IsPage q) (hdisj : ∀ q ∈ l, q ∉ l') : Listed m' head l := by
  refine h.congr fun q hq => hexc.same fun x hlo hhi => ?_
  rintro ⟨r, hr, hlo', hhi'⟩
  have := (hl q hq).apart (hl' r hr) fun heq => hdisj q hq (heq ▸ hr)
  omega

theorem Listed.head_eq_zero (h : Listed m head []) : head = 0 := ptr_eq_none.mp h

theorem Listed.head_eq (h : Listed m head (q :: l)) : head = q ∧ q ≠ 0 := ptr_eq_some.mp h.1

theorem next_setNext (m : Mem) (p : Nat) (hv : v < 2 ^ 64) : next (setNext m p v) p = v :=
  Mem.load_store_of_lt m p hv

theorem prev_setPrev (m : Mem) (p : Nat) (hv : v < 2 ^ 64) : prev (setPrev m p v) p = v :=
  Mem.load_store_of_lt m (p + 8) hv

section
variable (m : Mem) (hp : IsPage p) (hq : IsPage q)
include hp hq

theorem next_setPrev : next (setPrev m p v) q = next m q := by
  by_cases hne : p = q
  · subst hne
    exact Mem.load_store_ne (.inl le_rfl)
  · exact load_store_page (e := 0) hp hq hne (by omega) (by omega)

theorem prev_setNext : prev (setNext m p v) q = prev m q := by
  by_cases hne : p = q
  · subst hne
    exact Mem.load_store_ne (.inr le_rfl)
  · exact load_store_page (d := 0) hp hq hne (by omega) (by omega)

theorem next_setNext_ne (hne : p ≠ q) : next (setNext m p v) q = next m q :=
  load_store_page (d := 0) (e := 0) hp hq hne (by omega) (by omega)

theorem prev_setPrev_ne (hne : p ≠ q) : prev (setPrev m p v) q = prev m q :=
  load_store_page hp hq hne (by omega) (by omega)

end

theorem setNext_except (m : Mem) (v : Nat) (hp : p ∈ l) : Mem.Except m (setNext m p v) (Links l) :=
  (Mem.store_except m p 8 v).mono fun x hx => ⟨p, hp, hx.1, by omega⟩

theorem setPrev_except (m : Mem) (v : Nat) (hp : p ∈ l) : Mem.Except m (setPrev m p v) (Links l) :=
  (Mem.store_except m (p + 8) 8 v).mono fun x hx => ⟨p, hp, by omega, by omega⟩

theorem IsPage.lt (hp : IsPage p) : p < 2 ^ 64 := by
  have := hp.fits
  omega

theorem links_setNextIf (m : Mem) (hb : b ≠ 0 → IsPage b) (hn : n < 2 ^ 64) (hq : IsPage q) :
    next (if b ≠ 0 then setNext m b n else m) q = (if q = b then n else next m q) ∧
      prev (if b ≠ 0 then setNext m b n else m) q = prev m q := by
  by_cases h0 : b = 0
  · rw [if_neg (not_not.mpr h0), if_neg fun heq => hq.pos (heq.trans h0)]
    exact ⟨rfl, rfl⟩
  rw [if_pos h0]
  refine ⟨?_, prev_setNext m (hb h0) hq⟩
  split
  · rename_i heq
    rw [heq, next_setNext m b hn]
  · rename_i hne
    exact next_setNext_ne m (hb h0) hq (Ne.symm hne)

theorem links_setPrevIf (m : Mem) (hn : n ≠ 0 → IsPage n) (hb : b < 2 ^ 64) (hq : IsPage q) :
    next (if n ≠ 0 then setPrev m n b else m) q = next m q ∧
      prev (if n ≠ 0 then setPrev m n b else m) q = (if q = n then b else prev m q) := by
  by_cases h0 : n = 0
  · rw [if_neg (not_not.mpr h0), if_neg fun heq => hq.pos (heq.trans h0)]
    exact ⟨rfl, rfl⟩
  rw [if_pos h0]
  refine ⟨next_setPrev m (hn h0) hq, ?_⟩
  split
  · rename_i heq
    rw [heq, prev_setPrev m n hb]
  · rename_i hne
    exact prev_setPrev_ne m (hn h0) hq (Ne.symm hne)

theorem links_set (m : Mem) (hp : IsPage p) (hq : IsPage q) (hn : n < 2 ^ 64) :
    next (setPrev (setNext m p n) p 0) q = (if q = p then n else next m q) ∧
      prev (setPrev (setNext m p n) p 0) q = (if q = p then 0 else prev m q) := by
  rw [next_setPrev _ hp hq]
  by_cases hqp : q = p
  · subst hqp
    rw [next_setNext _ _ hn, prev_setPrev _ _ (by decide), if_pos rfl, if_pos rfl]
    exact ⟨rfl, rfl⟩
  · rw [next_setNext_ne _ hp hq (Ne.symm hqp), prev_setPrev_ne _ hp hq (Ne.symm hqp), prev_setNext _ hp hq, if_neg hqp,
      if_neg hqp]
    exact ⟨rfl, rfl⟩

theorem lt_of_isPage (hb : b ≠ 0 → IsPage b) : b < 2 ^ 64 := by
  by_cases h0 : b = 0
  · omega
  · exact (hb h0).lt

theorem listPush_links (hp : IsPage p) (hhead : head ≠ 0 → IsPage head) (hq : IsPage q) :
    next (listPush m head p).2 q = (if q = p then head else next m q) ∧
      prev (listPush m head p).2 q = if q = head then p else if q = p then 0 else prev m q := by
  obtain ⟨hnext, hprev⟩ := links_set m hp hq (lt_of_isPage hhead)
  obtain ⟨hnext', hprev'⟩ := links_setPrevIf (setPrev (setNext m p head) p 0) hhead hp.lt hq
  exact ⟨hnext'.trans hnext, by rw [← hprev]; exact hprev'⟩

theorem setNextIf_except (m : Mem) (b n : Nat) (hb : b ≠ 0 → b ∈ l) :
    Mem.Except m (if b ≠ 0 then setNext m b n else m) (Links l) := by
  split
  · rename_i h0
    exact setNext_except m n (hb h0)
  · exact Mem.Except.refl m _

theorem setPrevIf_except (m : Mem) (n b : Nat) (hn : n ≠ 0 → n ∈ l) :
    Mem.Except m (if n ≠ 0 then setPrev m n b else m) (Links l) := by
  split
  · rename_i h0
    exact setPrev_except m b (hn h0)
  · exact Mem.Except.refl m _

theorem listPush_except (hhead : head ≠ 0 → head ∈ l) : Mem.Except m (listPush m head p).2 (Links (p :: l)) :=
  ((setNext_except m head mem_cons_self).trans (setPrev_except _ 0 mem_cons_self)).trans
    (setPrevIf_except _ head p fun h0 => mem_cons_of_mem _ (hhead h0))

theorem Listed.head_mem (h : Listed m head l) (h0 : head ≠ 0) : head ∈ l := by
  cases l with
  | nil => exact absurd h.head_eq_zero h0
  | cons q l =>
    rw [h.head_eq.1]
    exact mem_cons_self

/-- A push writes links only, and puts the page first. -/
theorem listed_push (h : Listed m head l) (hp : IsPage p) (hl : ∀ q ∈ l, IsPage q) (hnew : p ∉ l) (hnd : l.Nodup) :
    Listed (listPush m head p).2 p (p :: l) ∧ Mem.Except m (listPush m head p).2 (Links (p :: l)) := by
  have hhead : head ≠ 0 → IsPage head := fun h0 => hl head (h.head_mem h0)
  have hne : head ≠ p := by
    rintro rfl
    exact hnew (h.head_mem hp.pos)
  have hcne : ∀ c ∈ l, c ≠ p := fun c hc heq => hnew (heq ▸ hc)
  have hlinks := fun q (hq : q ∈ l) => listPush_links (m := m) hp hhead (hl q hq)
  have hlinkp := listPush_links (m := m) hp hhead hp
  refine ⟨?_, listPush_except h.head_mem⟩
  have hpush := DList.push (a := p) (fun q => ptr (next (listPush m head p).2 q))
    (fun q => ptr (prev (listPush m head p).2 q)) h (by rw [hlinkp.1, if_pos rfl])
    (by rw [hlinkp.2, if_neg hne.symm, if_pos rfl, ptr_zero])
  have hdone := hpush (fun c hc => ?_) (fun c hc => ?_) (fun c hc hch => ?_) hnd
  · unfold Listed
    rw [ptr_of_ne hp.pos]
    exact hdone
  · obtain ⟨rfl, hc0⟩ := ptr_eq_some.mp hc
    have hmem := h.head_mem hc0
    rw [(hlinks head hmem).2, if_pos rfl, ptr_of_ne hp.pos]
  · rw [(hlinks c hc).1, if_neg (hcne c hc)]
  · have hchead : c ≠ head := by
      rintro rfl
      exact hch (ptr_of_ne (hl c hc).pos)
    rw [(hlinks c hc).2, if_neg hchead, if_neg (hcne c hc)]

/-- The part of `list_remove` that joins the neighbours. -/
def bypass (m : Mem) (b n : Nat) : Mem :=
  if n ≠ 0 then setPrev (if b ≠ 0 then setNext m b n else m) n b else if b ≠ 0 then setNext m b n else m

theorem listRemove_eq (m : Mem) (head p : Nat) : listRemove m head p =
    (if prev m p = 0 then next m p else head, setPrev (setNext (bypass m (prev m p) (next m p)) p 0) p 0) := by
  unfold listRemove bypass
  by_cases h0 : prev m p = 0
  · simp [h0]
  · simp [h0]

theorem listRemove_links (head : Nat) (hb : prev m p = b) (hn : next m p = n) (hp : IsPage p) (hbp : b ≠ 0 → IsPage b)
    (hnp : n ≠ 0 → IsPage n) (hq : IsPage q) (hqp : q ≠ p) :
    next (listRemove m head p).2 q = (if q = b then n else next m q) ∧
      prev (listRemove m head p).2 q = (if q = n then b else prev m q) := by
  obtain ⟨hn1, hp1⟩ := links_setNextIf m hbp (lt_of_isPage hnp) hq
  obtain ⟨hn2, hp2⟩ := links_setPrevIf (if b ≠ 0 then setNext m b n else m) hnp (lt_of_isPage hbp) hq
  obtain ⟨hn3, hp3⟩ := links_set (bypass m b n) hp hq (n := 0) (by decide)
  rw [listRemove_eq, hb, hn, hn3, hp3, if_neg hqp, if_neg hqp]
  exact ⟨hn2.trans hn1, by rw [← hp1]; exact hp2⟩

theorem listRemove_except (hp : p ∈ l) (hb : prev m p ≠ 0 → prev m p ∈ l) (hn : next m p ≠ 0 → next m p ∈ l) :
    Mem.Except m (listRemove m head p).2 (Links l) := by
  rw [listRemove_eq]
  have hbypass : Mem.Except m (bypass m (prev m p) (next m p)) (Links l) :=
    (setNextIf_except m _ _ hb).trans (setPrevIf_except _ _ _ hn)
  exact (hbypass.trans (setNext_except _ 0 hp)).trans (setPrev_except _ 0 hp)

section
variable (h : Listed m head (l₁ ++ p :: l₂))
include h

theorem prev_mem (h0 : prev m p ≠ 0) : prev m p ∈ l₁ := by
  have hprev := DList.prev_eq h
  rw [ptr_of_ne h0, Option.or_none] at hprev
  exact mem_of_getLast? hprev.symm

theorem next_mem (h0 : next m p ≠ 0) : next m p ∈ l₂ := by
  have hnext := DList.next_eq h
  rw [ptr_of_ne h0] at hnext
  exact mem_of_mem_head? hnext.symm

theorem prev_eq_zero_iff : prev m p = 0 ↔ l₁ = [] := by
  have hprev := DList.prev_eq h
  rw [Option.or_none] at hprev
  rw [← ptr_eq_none, hprev, getLast?_eq_none_iff]

/-- A removal writes links only, and leaves the others in order. -/
theorem listed_remove (hl : ∀ q ∈ l₁ ++ p :: l₂, IsPage q)
    (hnd : (l₁ ++ p :: l₂).Nodup) : Listed (listRemove m head p).2 (listRemove m head p).1 (l₁ ++ l₂) ∧
      Mem.Except m (listRemove m head p).2 (Links (l₁ ++ p :: l₂)) := by
  have hmem₁ : ∀ q ∈ l₁, q ∈ l₁ ++ p :: l₂ := fun q hq => mem_append_left _ hq
  have hmem₂ : ∀ q ∈ l₂, q ∈ l₁ ++ p :: l₂ := fun q hq => mem_append_right _ (mem_cons_of_mem _ hq)
  have hp : p ∈ l₁ ++ p :: l₂ := mem_append_right _ mem_cons_self
  have hb : prev m p ≠ 0 → prev m p ∈ l₁ ++ p :: l₂ := fun h0 => hmem₁ _ (prev_mem h h0)
  have hn : next m p ≠ 0 → next m p ∈ l₁ ++ p :: l₂ := fun h0 => hmem₂ _ (next_mem h h0)
  have hne : ∀ q ∈ l₁ ++ l₂, q ≠ p := by
    rintro q hq rfl
    exact (nodup_middle.mp hnd |> nodup_cons.mp).1 hq
  have hpage : ∀ q ∈ l₁ ++ l₂, IsPage q := by
    intro q hq
    rcases mem_append.mp hq with hq | hq
    · exact hl q (hmem₁ q hq)
    · exact hl q (hmem₂ q hq)
  have hlinks := fun q (hq : q ∈ l₁ ++ l₂) => listRemove_links head rfl rfl (hl p hp)
    (fun h0 => hl _ (hb h0)) (fun h0 => hl _ (hn h0)) (hpage q hq) (hne q hq)
  refine ⟨?_, listRemove_except hp hb hn⟩
  have hremove :=
    DList.remove (fun q => ptr (next (listRemove m head p).2 q)) (fun q => ptr (prev (listRemove m head p).2 q))
    h hnd (fun c _ heq => by cases heq)
  have hdone := hremove (fun c hc hcp => ?_) (fun c hcn => ?_) (fun c hc hcp => ?_) (fun c hc hcn => ?_)
  · have hhead : ptr (listRemove m head p).1 = if l₁ = [] then ptr (next m p) else ptr head := by
      rw [listRemove_eq]
      by_cases hl₁ : l₁ = []
      · rw [if_pos hl₁, if_pos ((prev_eq_zero_iff h).mpr hl₁)]
      · rw [if_neg hl₁, if_neg fun h0 => hl₁ ((prev_eq_zero_iff h).mp h0)]
    unfold Listed
    rw [hhead]
    exact hdone
  · obtain ⟨heq, -⟩ := ptr_eq_some.mp hcp
    rw [(hlinks c (mem_append_left _ hc)).1, if_pos heq.symm]
  · obtain ⟨rfl, h0⟩ := ptr_eq_some.mp hcn
    rw [(hlinks _ (mem_append_right _ (next_mem h h0))).2, if_pos rfl]
  · rw [(hlinks c hc).1, if_neg]
    intro heq
    exact hcp ((congrArg ptr heq).symm.trans (ptr_of_ne (hpage c hc).pos))
  · rw [(hlinks c hc).2, if_neg]
    intro heq
    exact hcn ((congrArg ptr heq).symm.trans (ptr_of_ne (hpage c hc).pos))

end

end Lists

end Moxide.Slab
