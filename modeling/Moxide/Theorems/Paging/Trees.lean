import Moxide.Lib.Word
import Moxide.Paging

/-! The fields of page-table entries: what `map_page` and the clone write, and what a walk reads of it. -/

namespace Moxide.Paging
open Lib (Word.toNat_field Word.or_and_right)
open UInt64 (or_zero and_zero)

def pageEntry (pa flags : UInt64) : UInt64 := (pa &&& ADDR_MASK) ||| (flags &&& ~~~ADDR_MASK) ||| PTE_PRESENT

def Maps (e : UInt64) (f : Nat) : Prop := e &&& PTE_PRESENT ≠ 0 ∧ frameOf e = f

instance (e : UInt64) (f : Nat) : Decidable (Maps e f) := inferInstanceAs (Decidable (_ ∧ _))

theorem not_maps_zero (f : Nat) : ¬Maps 0 f := fun h => h.1 (by decide)

theorem toNat_field (e : UInt64) : (e &&& ADDR_MASK).toNat = e.toNat % 2 ^ 52 / 2 ^ 12 * 2 ^ 12 :=
  Word.toNat_field (by decide) (by decide) e

theorem toNat_addr (e : UInt64) : (e &&& ADDR_MASK).toNat = frameOf e * 4096 := by
  unfold frameOf
  rw [toNat_field]
  omega

theorem frameOf_congr {e e' : UInt64} (h : e &&& ADDR_MASK = e' &&& ADDR_MASK) : frameOf e = frameOf e' := by
  unfold frameOf
  rw [h]

section
variable {f : Nat} (hf : f < 2 ^ 40)
include hf

theorem toNat_addrOf : (addrOf f).toNat = f * 4096 := by
  have hsize : f * 4096 < UInt64.size := by
    change f * 4096 < 2 ^ 64
    omega
  exact UInt64.toNat_ofNat_of_lt' hsize

theorem frameOf_addrOf : frameOf (addrOf f) = f := by
  unfold frameOf
  rw [toNat_field, toNat_addrOf hf]
  omega

theorem addrOf_div : (addrOf f).toNat / 4096 = f := by
  rw [toNat_addrOf hf, Nat.mul_div_cancel f (by decide)]

theorem frameOf_tableEntry : frameOf (tableEntry f) = f := by
  have hmask : tableEntry f &&& ADDR_MASK = addrOf f &&& ADDR_MASK := by
    unfold tableEntry
    rw [Word.or_and_right, Word.or_and_right, Word.or_and_right]
    have h0 : PTE_PRESENT &&& ADDR_MASK = 0 ∧ PTE_WRITABLE &&& ADDR_MASK = 0 ∧ PTE_USER &&& ADDR_MASK = 0 := by decide
    rw [h0.1, h0.2.1, h0.2.2, or_zero, or_zero, or_zero]
  rw [frameOf_congr hmask, frameOf_addrOf hf]

end

theorem or_bit_ne_zero {a b c : UInt64} (h : b &&& c ≠ 0) : (a ||| b) &&& c ≠ 0 := by
  rw [Word.or_and_right]
  intro hzero
  exact h (UInt64.or_eq_zero_iff.mp hzero).2

theorem tableEntry_present (f : Nat) : tableEntry f &&& PTE_PRESENT ≠ 0 := by
  unfold tableEntry
  rw [UInt64.or_assoc, UInt64.or_assoc]
  exact or_bit_ne_zero (by decide)

theorem nextTable_tableEntry {f : Nat} (hf : f < 2 ^ 40) : nextTable (tableEntry f) = some f := by
  rw [nextTable, if_neg (tableEntry_present f), frameOf_tableEntry hf]

theorem nextTable_zero : nextTable 0 = none := by decide

theorem nextTable_eq_none {e : UInt64} : nextTable e = none ↔ e &&& PTE_PRESENT = 0 := by
  unfold nextTable
  split
  · rename_i h
    exact ⟨fun _ => h, fun _ => rfl⟩
  · rename_i h
    exact ⟨(fun heq => by cases heq), fun h0 => absurd h0 h⟩

/-! ### Entries for pages -/

section
variable (pa flags : UInt64)

theorem pageEntry_present : pageEntry pa flags &&& PTE_PRESENT ≠ 0 := or_bit_ne_zero (by decide)

theorem pageEntry_addr : pageEntry pa flags &&& ADDR_MASK = pa &&& ADDR_MASK := by
  have h0 : ~~~ADDR_MASK &&& ADDR_MASK = 0 ∧ PTE_PRESENT &&& ADDR_MASK = 0 := by decide
  unfold pageEntry
  rw [Word.or_and_right, Word.or_and_right, UInt64.and_assoc, UInt64.and_assoc, h0.1, h0.2, and_zero, or_zero,
    or_zero, UInt64.and_self]

theorem frameOf_pageEntry : frameOf (pageEntry pa flags) = frameOf pa := frameOf_congr (pageEntry_addr pa flags)

theorem pageEntry_maps : Maps (pageEntry pa flags) (frameOf pa) :=
  ⟨pageEntry_present pa flags, frameOf_pageEntry pa flags⟩

theorem pageEntry_writable : pageEntry pa flags &&& PTE_WRITABLE = flags &&& PTE_WRITABLE := by
  have h0 : ADDR_MASK &&& PTE_WRITABLE = 0 ∧ ~~~ADDR_MASK &&& PTE_WRITABLE = PTE_WRITABLE ∧
    PTE_PRESENT &&& PTE_WRITABLE = 0 := by
    decide
  unfold pageEntry
  rw [Word.or_and_right, Word.or_and_right, UInt64.and_assoc, UInt64.and_assoc, h0.1, h0.2.1, h0.2.2, and_zero,
    UInt64.zero_or, or_zero]

end

theorem cowEntry_and {e c : UInt64} (hw : ~~~PTE_WRITABLE &&& c = c) (hc : PTE_COW &&& c = 0) :
    cowEntry e &&& c = e &&& c := by
  unfold cowEntry
  split
  · rw [Word.or_and_right, UInt64.and_assoc, hw, hc, or_zero]
  · rfl

theorem cowEntry_maps {e : UInt64} {f : Nat} : Maps (cowEntry e) f ↔ Maps e f := by
  unfold Maps
  rw [cowEntry_and (by decide) (by decide), frameOf_congr (cowEntry_and (e := e) (by decide) (by decide))]

theorem cowEntry_present (e : UInt64) : cowEntry e &&& PTE_PRESENT = e &&& PTE_PRESENT :=
  cowEntry_and (by decide) (by decide)

theorem cowEntry_writable (e : UInt64) : cowEntry e &&& PTE_WRITABLE = 0 := by
  unfold cowEntry
  split
  · have h0 : ~~~PTE_WRITABLE &&& PTE_WRITABLE = 0 ∧ PTE_COW &&& PTE_WRITABLE = 0 := by decide
    rw [Word.or_and_right, UInt64.and_assoc, h0.1, h0.2, and_zero, or_zero]
  · rename_i h
    exact not_not.mp h

theorem cowEntry_cowEntry (e : UInt64) : cowEntry (cowEntry e) = cowEntry e := by
  rw [cowEntry, if_neg (not_not.mpr (cowEntry_writable e))]

theorem pteFlags_writable (prot : UInt32) :
    pteFlags (Mmap.protToFlags prot) &&& PTE_WRITABLE = 0 ↔ prot &&& Mmap.PROT_WRITE = 0 := by
  unfold pteFlags Mmap.protToFlags
  by_cases hw : prot &&& Mmap.PROT_WRITE = 0
  · by_cases hx : prot &&& Mmap.PROT_EXEC = 0
    · simp only [hw, hx, ne_eq, not_true_eq_false, if_false, if_true, iff_true]
      decide
    · simp only [hw, hx, ne_eq, not_true_eq_false, if_false, iff_true]
      decide
  · by_cases hx : prot &&& Mmap.PROT_EXEC = 0
    · simp only [hw, hx, ne_eq, not_false_eq_true, if_true, iff_false]
      decide
    · simp only [hw, hx, ne_eq, not_false_eq_true, if_true, if_false, iff_false]
      decide

/-! Page tables as a forest in memory. An address space is seen as the entries of its pages. -/

open Lib List Option
open Lib.Radix (walk)

def leaf (mem : Nat → Index → UInt64) (r : Nat) (p : List Index) (i : Index) : UInt64 :=
  match walk nextTable mem r p with
  | some t => mem t i
  | none => 0

abbrev Table (mem : Nat → Index → UInt64) (R : Nat → Prop) (t : Nat) : Prop := Radix.Node nextTable mem 3 R t

def Same (R : Nat → Prop) (mem mem' : Nat → Index → UInt64) : Prop :=
  ∀ r p i, R r → p.length = 3 → leaf mem' r p i = leaf mem r p i

def Updated (R : Nat → Prop) (r₀ : Nat) (p₀ : List Index) (i₀ : Index) (e : UInt64)
    (mem mem' : Nat → Index → UInt64) : Prop :=
  ∀ r p i, R r → p.length = 3 → leaf mem' r p i = if r = r₀ ∧ p = p₀ ∧ i = i₀ then e else leaf mem r p i

/-- The next `n` frames of the allocator are outside `T`, and none comes twice. Physical addresses have 52 bits. -/
def Supplies (lay : Pmm.Layout) (node : Nat) : Nat → Pmm.State → (Nat → Prop) → Prop
  | 0, _, _ => True
  | n + 1, s, T =>
    ∀ f s', s.allocPage lay node = (some f, s') → f < 2 ^ 40 ∧ ¬T f ∧ Supplies lay node n s' fun g => T g ∨ g = f

/-- The tables form trees, and the allocator hands out frames that are not part of them. -/
structure Trees (lay : Pmm.Layout) (node : Nat) (m : Machine) (R : Nat → Prop) : Prop where
  forest : Radix.Forest nextTable m.mem 3 R
  supply : ∀ n, Supplies lay node n m.pmm (Table m.mem R)

inductive Takes (lay : Pmm.Layout) (node : Nat) : Pmm.State → List Nat → Pmm.State → Prop where
  | nil {s} : Takes lay node s [] s
  | cons {s s₁ s₂ f fs} (ha : s.allocPage lay node = (some f, s₁)) (ht : Takes lay node s₁ fs s₂) :
    Takes lay node s (f :: fs) s₂

/-- New tables are frames that the allocator handed out. -/
def Grows (lay : Pmm.Layout) (node : Nat) (R R' : Nat → Prop) (m m' : Machine) : Prop :=
  ∃ fs, Takes lay node m.pmm fs m'.pmm ∧ ∀ {g}, Table m'.mem R' g → Table m.mem R g ∨ g ∈ fs

section
variable {lay : Pmm.Layout} {m m' m'' : Machine} {R R' R'' : Nat → Prop} {node : Nat}
variable {r r₀ t f : Nat} {p p₀ : List Index} {i : Index} {e : UInt64}

variable {mem mem' : Nat → Index → UInt64}

theorem leaf_eq (hw : walk nextTable mem r p = some t) : leaf mem r p i = mem t i := by
  rw [leaf, hw]

theorem leaf_none (hw : walk nextTable mem r p = none) : leaf mem r p i = 0 := by
  rw [leaf, hw]

theorem leaf_congr (hw : walk nextTable mem' r p = walk nextTable mem r p)
    (ht : ∀ t, walk nextTable mem r p = some t → mem' t i = mem t i) : leaf mem' r p i = leaf mem r p i := by
  unfold leaf
  rw [hw]
  cases h : walk nextTable mem r p with
  | none => rfl
  | some t => exact ht t h

theorem Same.trans {mem'' : Nat → Index → UInt64} (h : Same R mem mem') (h' : Same R mem' mem'') :
    Same R mem mem'' := fun r p i hr hp => (h' r p i hr hp).trans (h r p i hr hp)

theorem Same.updated {mem'' : Nat → Index → UInt64} (h : Same R mem mem') (h' : Updated R r₀ p₀ i e mem' mem'') :
    Updated R r₀ p₀ i e mem mem'' := by
  intro r p j hr hp
  rw [h' r p j hr hp, h r p j hr hp]

theorem Same.outside (hsame : ∀ t, Table mem R t → mem' t = mem t) : Same R mem mem' := by
  intro r p i hr hp
  refine leaf_congr (Radix.walk_outside hsame hr (le_of_eq hp)) fun t ht => ?_
  rw [hsame t ⟨r, p, hr, le_of_eq hp, ht⟩]

@[simp]
theorem Machine.set_mem : (m.set t i e).mem = Radix.set m.mem t i e := rfl

theorem Supplies.mono {n : Nat} : ∀ {s : Pmm.State} {T T' : Nat → Prop}, (∀ g, T' g → T g) → Supplies lay node n s T →
    Supplies lay node n s T' := by
  induction n with
  | zero => exact fun _ _ => trivial
  | succ n ih =>
    intro s T T' hsub h f s' ha
    obtain ⟨hlt, hnew, hrest⟩ := h f s' ha
    exact ⟨hlt, fun ht => hnew (hsub f ht), ih (fun g => Or.imp_left (hsub g)) hrest⟩

theorem Takes.append {s s₁ s₂ : Pmm.State} {fs gs : List Nat} (h : Takes lay node s fs s₁) (h' : Takes lay node s₁ gs s₂) :
    Takes lay node s (fs ++ gs) s₂ := by
  induction h with
  | nil => exact h'
  | cons ha _ ih => exact .cons ha (ih h')

theorem Grows.of_table (hpmm : m'.pmm = m.pmm) (ht : ∀ {g}, Table m'.mem R g → Table m.mem R g) : Grows lay node R R m m' :=
  ⟨[], hpmm ▸ .nil, fun h => .inl (ht h)⟩

theorem Grows.refl : Grows lay node R R m m := .of_table rfl id

theorem Grows.trans (h : Grows lay node R R' m m') (h' : Grows lay node R' R'' m' m'') : Grows lay node R R'' m m'' := by
  obtain ⟨fs, htakes, htable⟩ := h
  obtain ⟨gs, htakes', htable'⟩ := h'
  refine ⟨fs ++ gs, htakes.append htakes', fun hg => ?_⟩
  rcases htable' hg with hg | hg
  · exact (htable hg).imp_right (mem_append_left _)
  · exact .inr (mem_append_right _ hg)

/-! ### New tables -/

/-- What `alloc_table` returns: a cleared frame outside the trees. -/
structure Blank (lay : Pmm.Layout) (node : Nat) (R : Nat → Prop) (m : Machine) (f : Nat) : Prop where
  forest : Radix.Forest nextTable m.mem 3 R
  supply : ∀ n, Supplies lay node n m.pmm fun g => Table m.mem R g ∨ g = f
  fresh : Radix.Fresh nextTable m.mem 3 R f
  zero : ∀ i, m.mem f i = 0
  lt : f < 2 ^ 40

theorem allocPage_split {o : Option Nat} (ha : m.allocPage lay node = (o, m')) :
    m.pmm.allocPage lay node = (o, m'.pmm) ∧ m'.mem = m.mem := by
  cases ha
  exact ⟨rfl, rfl⟩

theorem Trees.allocTable (h : Trees lay node m R) (ha : m.allocTable lay node = some (f, m')) :
    Blank lay node R m' f ∧ Takes lay node m.pmm [f] m'.pmm ∧ ∀ t, Table m.mem R t → m'.mem t = m.mem t := by
  unfold Machine.allocTable at ha
  split at ha
  · cases ha
  rename_i g u hu
  obtain ⟨hg, rfl⟩ := Prod.mk.inj (some.inj ha)
  subst hg
  obtain ⟨hpmm, hmem⟩ := allocPage_split hu
  have hsupply := fun n => h.supply (n + 1) g u.pmm hpmm
  obtain ⟨hlt, hnew, -⟩ := hsupply 0
  have hout : ∀ t, Table m.mem R t → Function.update u.mem g (fun _ => 0) t = m.mem t := by
    intro t ht
    rw [Function.update_of_ne, hmem]
    rintro rfl
    exact hnew ht
  have hcleared : ∀ i, Function.update u.mem g (fun _ => 0) g i = 0 := fun i => by rw [Function.update_self]
  refine ⟨⟨Radix.Forest.outside h.forest hout, fun n => ?_, ⟨fun ht => hnew ((Radix.node_outside hout).mp ht), fun i => ?_⟩,
    hcleared, hlt⟩, .cons hpmm .nil, hout⟩
  · exact Supplies.mono (fun t => Or.imp_left (Radix.node_outside hout).mp) (hsupply n).2.2
  · exact (congrArg nextTable (hcleared i)).trans nextTable_zero

section
variable (hf : Blank lay node R m f)
include hf

theorem Blank.addRoot : Trees lay node m fun r => R r ∨ r = f :=
  ⟨Radix.Forest.addRoot hf.forest hf.fresh, fun n => (hf.supply n).mono fun _ => (Radix.node_addRoot hf.fresh).mp⟩

theorem Blank.leaf (hp : p.length = 3) : leaf m.mem f p i = 0 := by
  refine leaf_none (Radix.walk_bare hf.fresh.bare ?_)
  rintro rfl
  cases hp

theorem Blank.link (hr₀ : R r₀) (hp₀ : p₀.length < 3) (hw : walk nextTable m.mem r₀ p₀ = some t)
    (hnone : nextTable (m.mem t i) = none) :
    Trees lay node (m.set t i (tableEntry f)) R ∧ Same R m.mem (m.set t i (tableEntry f)).mem ∧
      ∀ g, Table (m.set t i (tableEntry f)).mem R g → Table m.mem R g ∨ g = f := by
  have hnext : nextTable (tableEntry f) = some f := nextTable_tableEntry hf.lt
  have hne : f ≠ t := fun heq => hf.fresh.new (heq ▸ ⟨r₀, p₀, hr₀, le_of_lt hp₀, hw⟩)
  have hnode : ∀ g, Table (m.set t i (tableEntry f)).mem R g → Table m.mem R g ∨ g = f := fun g ht =>
    (Radix.node_insert hf.forest hr₀ hp₀ hw hnone hnext hf.fresh).mp ht
  refine ⟨⟨Radix.Forest.insert hf.forest hr₀ hp₀ hw hnext hf.fresh, fun n => (hf.supply n).mono hnode⟩, ?_, hnode⟩
  intro r p j hr hp
  by_cases hin : r = r₀ ∧ p₀ ++ [i] <+: p
  · obtain ⟨rfl, q, rfl⟩ := hin
    rw [leaf_none (Radix.walk_of_none hw hnone q)]
    by_cases hq : q = []
    · subst hq
      rw [append_nil, Machine.set_mem, leaf_eq (Radix.walk_insert_self hf.forest hr₀ hp₀ hw hnext)]
      exact (Radix.set_of_ne fun heq => hne heq.1).trans (hf.zero j)
    · exact leaf_none (Radix.walk_insert_deep hf.forest hr₀ hp₀ hw hnext hf.fresh hq)
  refine leaf_congr (Radix.walk_insert_of_ne hf.forest hr₀ hp₀ hw hr (le_of_eq hp) hin) fun u hu => ?_
  refine Radix.set_of_ne ?_
  rintro ⟨rfl, rfl⟩
  -- the last tables are not among those above
  have hlen := congrArg List.length (hf.forest hr hr₀ (le_of_eq hp) (le_of_lt hp₀) hu hw).2
  omega

end

theorem Trees.fill (h : Trees lay node m R) (hr₀ : R r₀) (hp₀ : p₀.length < 3)
    (hw : walk nextTable m.mem r₀ p₀ = some t) (hnone : nextTable (m.mem t i) = none)
    (ha : m.allocTable lay node = some (f, m')) :
    Trees lay node (m'.set t i (tableEntry f)) R ∧ Grows lay node R R m (m'.set t i (tableEntry f)) ∧
      Same R m.mem (m'.set t i (tableEntry f)).mem ∧ f < 2 ^ 40 ∧
      walk nextTable (m'.set t i (tableEntry f)).mem r₀ (p₀ ++ [i]) = some f ∧
      (∀ {q}, q ≠ [] → walk nextTable (m'.set t i (tableEntry f)).mem r₀ (p₀ ++ [i] ++ q) = none) ∧
      ∀ {r p}, R r → p.length ≤ 3 → ¬(r = r₀ ∧ p₀ ++ [i] <+: p) →
        walk nextTable (m'.set t i (tableEntry f)).mem r p = walk nextTable m.mem r p := by
  obtain ⟨hf, htakes, hout⟩ := h.allocTable ha
  have hwalk : ∀ {r p}, R r → p.length ≤ 3 → walk nextTable m'.mem r p = walk nextTable m.mem r p :=
    fun hr hp => Radix.walk_outside hout hr hp
  have hw' := (hwalk hr₀ (le_of_lt hp₀)).trans hw
  have hnone' : nextTable (m'.mem t i) = none := by
    rw [hout t ⟨r₀, p₀, hr₀, le_of_lt hp₀, hw⟩]
    exact hnone
  have hnext : nextTable (tableEntry f) = some f := nextTable_tableEntry hf.lt
  obtain ⟨hlink, hsame, hnode⟩ := hf.link hr₀ hp₀ hw' hnone'
  refine ⟨hlink, ⟨[f], htakes, fun {g} hg => ?_⟩, (Same.outside hout).trans hsame, hf.lt,
    Radix.walk_insert_self hf.forest hr₀ hp₀ hw' hnext,
      fun hq => Radix.walk_insert_deep hf.forest hr₀ hp₀ hw' hnext hf.fresh hq,
    fun hr hp hin => (Radix.walk_insert_of_ne hf.forest hr₀ hp₀ hw' hr hp hin).trans (hwalk hr hp)⟩
  exact (hnode g hg).imp (Radix.node_outside hout).mp mem_singleton.mpr

/-- The walk along the rest `is` of a path makes the tables that are missing, and no page changes. -/
theorem Trees.walkMut (hr₀ : R r₀) {pt : Nat} (is : List Index) :
    ∀ {m t p₀}, Trees lay node m R → p₀.length + is.length = 3 →
    walk nextTable m.mem r₀ p₀ = some t → Machine.walkMut lay node m t is = some (pt, m') →
    Trees lay node m' R ∧ Grows lay node R R m m' ∧ Same R m.mem m'.mem ∧
      walk nextTable m'.mem r₀ (p₀ ++ is) = some pt := by
  induction is with
  | nil =>
    intro m t p₀ h hlen hw hwalk
    obtain ⟨rfl, rfl⟩ := Prod.mk.inj (some.inj hwalk)
    exact ⟨h, .refl, fun _ _ _ _ _ => rfl, by rw [append_nil]; exact hw⟩
  | cons i is ih =>
    intro m t p₀ h hlen hw hwalk
    rw [length_cons] at hlen
    have hlen' : (p₀ ++ [i]).length + is.length = 3 := by
      rw [length_append, length_singleton]
      omega
    obtain ⟨u, hu, hwalk⟩ := bind_eq_some_iff.mp hwalk
    split at hu
    · rename_i habsent
      obtain ⟨⟨f, v⟩, hv, rfl⟩ := map_eq_some_iff.mp hu
      obtain ⟨h₁, hgrows₁, hsame₁, hlt, hself, -⟩ := h.fill hr₀ (by omega) hw (nextTable_eq_none.mpr habsent) hv
      have hframe : frameOf ((v.set t i (tableEntry f)).mem t i) = f := by
        rw [Machine.set_mem, Radix.set_self]
        exact frameOf_tableEntry hlt
      rw [hframe] at hwalk
      obtain ⟨h', hgrows, hsame, hpt⟩ := ih h₁ hlen' hself hwalk
      rw [append_assoc] at hpt
      exact ⟨h', hgrows₁.trans hgrows, hsame₁.trans hsame, hpt⟩
    · rename_i hpresent
      cases hu
      have hself : walk nextTable m.mem r₀ (p₀ ++ [i]) = some (frameOf (m.mem t i)) := by
        rw [Radix.walk_snoc, hw, bind_some, nextTable, if_neg hpresent]
      obtain ⟨h', hgrows, hsame, hpt⟩ := ih h hlen' hself hwalk
      rw [append_assoc] at hpt
      exact ⟨h', hgrows, hsame, hpt⟩

/-! ### Entries of pages -/

theorem Trees.setLeaf (h : Trees lay node m R) (hr₀ : R r₀) (hp₀ : p₀.length = 3)
    (hw : walk nextTable m.mem r₀ p₀ = some t) :
    Trees lay node (m.set t i e) R ∧ Updated R r₀ p₀ i e m.mem (m.set t i e).mem ∧
      (∀ {r p}, R r → p.length ≤ 3 →
        walk nextTable (m.set t i e).mem r p = walk nextTable m.mem r p) ∧
      ∀ g, Table (m.set t i e).mem R g ↔ Table m.mem R g := by
  have hwalk : ∀ {r p}, R r → p.length ≤ 3 →
      walk nextTable (m.set t i e).mem r p = walk nextTable m.mem r p := fun hr hp =>
    Radix.walk_set_bottom h.forest hr₀ hp₀ hw hr hp
  have hnode : ∀ g, Table (m.set t i e).mem R g ↔ Table m.mem R g := fun g => Radix.node_of_walk hwalk
  refine ⟨⟨Radix.Forest.of_walk h.forest hwalk, fun n => (h.supply n).mono fun g => (hnode g).mp⟩, ?_, hwalk, hnode⟩
  intro r p j hr hp
  split
  · rename_i hat
    obtain ⟨rfl, rfl, rfl⟩ := hat
    rw [leaf_eq ((hwalk hr (le_of_eq hp)).trans hw), Machine.set_mem, Radix.set_self]
  rename_i hat
  refine leaf_congr (hwalk hr (le_of_eq hp)) fun u hu => Radix.set_of_ne ?_
  rintro ⟨rfl, rfl⟩
  obtain ⟨rfl, rfl⟩ := h.forest hr hr₀ (le_of_eq hp) (le_of_eq hp₀) hu hw
  exact hat ⟨rfl, rfl, rfl⟩

def pte (m : Machine) (cr3 va : UInt64) : UInt64 := leaf m.mem (cr3.toNat / 4096) (upper va) (index va 12)

variable {cr3 va pa flags : UInt64}

theorem walkRo_cases (m : Machine) (cr3 va : UInt64) :
    (m.walkRo cr3 va = none ∧ pte m cr3 va = 0) ∨
      ∃ t, m.walkRo cr3 va = some (t, index va 12) ∧ walk nextTable m.mem (cr3.toNat / 4096) (upper va) = some t ∧
        pte m cr3 va = m.mem t (index va 12) := by
  unfold Machine.walkRo pte
  cases hw : walk nextTable m.mem (cr3.toNat / 4096) (upper va) with
  | none => exact .inl ⟨rfl, leaf_none hw⟩
  | some t => exact .inr ⟨t, rfl, rfl, leaf_eq hw⟩

theorem virtToPhys_eq (m : Machine) (cr3 va : UInt64) :
    m.virtToPhys cr3 va = if pte m cr3 va &&& PTE_PRESENT = 0 then none else some (pte m cr3 va &&& ADDR_MASK) := by
  unfold Machine.virtToPhys
  rcases walkRo_cases m cr3 va with ⟨hnone, hzero⟩ | ⟨t, hsome, -, he⟩
  · rw [hnone, hzero]
    rfl
  · rw [hsome, he]

theorem virtToPhys_some (h : m.virtToPhys cr3 va = some pa) :
    Maps (pte m cr3 va) (frameOf pa) ∧ pa.toNat = frameOf pa * 4096 := by
  rw [virtToPhys_eq] at h
  split at h
  · cases h
  rename_i hpresent
  obtain rfl := some.inj h
  have hframe : frameOf (pte m cr3 va &&& ADDR_MASK) = frameOf (pte m cr3 va) := frameOf_congr (by
    rw [UInt64.and_assoc, UInt64.and_self])
  rw [hframe]
  exact ⟨⟨hpresent, rfl⟩, toNat_addr _⟩

variable (h : Trees lay node m R) (hr : R (cr3.toNat / 4096))
include h hr

theorem Trees.mapPage (hm : m.mapPage lay node cr3 va pa flags = some m') :
    Trees lay node m' R ∧ Grows lay node R R m m' ∧
      Updated R (cr3.toNat / 4096) (upper va) (index va 12) (pageEntry pa flags) m.mem m'.mem := by
  obtain ⟨⟨pt, u⟩, hu, rfl⟩ := map_eq_some_iff.mp hm
  obtain ⟨h', hgrows, hsame, hpt⟩ := Trees.walkMut hr (upper va) h (show ([] : List Index).length + 3 = 3 from rfl) rfl hu
  obtain ⟨hset, hupd, -, hnode⟩ := h'.setLeaf (i := index va 12) hr rfl hpt
  exact ⟨hset, hgrows.trans (.of_table rfl (hnode _).mp), hsame.updated hupd⟩

theorem Trees.unmapPage (va : UInt64) :
    (m.virtToPhys cr3 va = none ∧ m.unmapPage cr3 va = (none, m)) ∨
      ∃ pa m', m.virtToPhys cr3 va = some pa ∧ m.unmapPage cr3 va = (some pa, m') ∧ m'.pmm = m.pmm ∧ Trees lay node m' R ∧
        (∀ g, Table m'.mem R g ↔ Table m.mem R g) ∧
        Updated R (cr3.toNat / 4096) (upper va) (index va 12) 0 m.mem m'.mem := by
  unfold Machine.virtToPhys Machine.unmapPage
  rcases walkRo_cases m cr3 va with ⟨hnone, -⟩ | ⟨t, hsome, hw, -⟩
  · rw [hnone]
    exact .inl ⟨rfl, rfl⟩
  rw [hsome]
  dsimp only
  split
  · exact .inl ⟨rfl, rfl⟩
  · obtain ⟨hset, hupd, -, hnode⟩ := h.setLeaf (i := index va 12) (e := 0) hr rfl hw
    exact .inr ⟨_, _, rfl, rfl, rfl, hset, hnode, hupd⟩

end

end Moxide.Paging
