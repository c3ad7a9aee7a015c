import Moxide.Pmm

/-! The invariant of the buddy allocator. What says that no block has been lost holds only under `whole`. -/

namespace Moxide.Pmm
open Lib List
open State
open Function (update update_of_ne update_self)

/-- The free lists, by node and order. -/
abbrev Lists := Nat → Nat → List Nat

def Lists.set (L : Lists) (n k : Nat) (l : List Nat) : Lists := update L n (update (L n) k l)

theorem Lists.set_apply (L : Lists) (n k : Nat) (l : List Nat) (m j : Nat) :
    L.set n k l m j = if m = n ∧ j = k then l else L m j := by
  unfold Lists.set
  by_cases hm : m = n
  · subst hm
    by_cases hj : j = k <;> simp [hj]
  · simp [hm]

@[simp]
theorem Lists.set_same (L : Lists) (n k : Nat) (l : List Nat) : L.set n k l n k = l := by
  simp [Lists.set_apply]

/-- How many pages a node has on its lists. -/
def Lists.pages (L : Lists) (n : Nat) : Nat := ∑ k ∈ Finset.range MAX_ORDER, 2 ^ k * (L n k).length

/-- The page is in a block on a list. -/
def Lists.Covers (L : Lists) (g : Nat) : Prop := ∃ n k f, f ∈ L n k ∧ InBlock f k g

theorem Lists.pages_set_of_ne (L : Lists) {n m : Nat} (k : Nat) (l : List Nat) (h : m ≠ n) :
    (L.set n k l).pages m = L.pages m := by
  simp [Lists.pages, Lists.set_apply, h]

theorem Lists.pages_set (L : Lists) (n : Nat) {k : Nat} (l : List Nat) (hk : k < MAX_ORDER) :
    (L.set n k l).pages n + 2 ^ k * (L n k).length = L.pages n + 2 ^ k * l.length := by
  have hmem := Finset.mem_range.mpr hk
  have hrest : ∑ j ∈ (Finset.range MAX_ORDER).erase k, 2 ^ j * (L.set n k l n j).length =
      ∑ j ∈ (Finset.range MAX_ORDER).erase k, 2 ^ j * (L n j).length := by
    refine Finset.sum_congr rfl fun j hj => ?_
    simp [Lists.set_apply, (Finset.mem_erase.mp hj).1]
  unfold Lists.pages
  rw [← Finset.add_sum_erase _ _ hmem, ← Finset.add_sum_erase _ (fun j => 2 ^ j * (L n j).length) hmem, hrest,
    Lists.set_same]
  omega

theorem Lists.mem_set_cons {L : Lists} {n k f m j e : Nat} :
    e ∈ L.set n k (f :: L n k) m j ↔ (m = n ∧ j = k ∧ e = f) ∨ e ∈ L m j := by
  rw [Lists.set_apply]
  split
  · rename_i heq
    obtain ⟨rfl, rfl⟩ := heq
    simp
  · rename_i hne
    exact ⟨.inr, fun he => he.resolve_left fun hnew => hne ⟨hnew.1, hnew.2.1⟩⟩

theorem Lists.pages_cons (L : Lists) (n f : Nat) {k : Nat} (hk : k < MAX_ORDER) :
    (L.set n k (f :: L n k)).pages = update L.pages n (L.pages n + 2 ^ k) := by
  have hpages := L.pages_set n (f :: L n k) hk
  rw [length_cons, Nat.mul_succ] at hpages
  funext m
  by_cases hm : m = n
  · subst hm
    rw [update_self]
    omega
  · rw [update_of_ne hm, L.pages_set_of_ne k _ hm]

/-- `L` are the free lists, `A` the pages added, `H` those in hand; `whole` if no block is lost. -/
structure Inv (whole : Prop) (A H : Nat → Prop) (s : State) (L : Lists) : Prop where
  chain : ∀ n k, Chain (fun g => (s.info g).freeNext) (s.heads n k) (L n k)
  nodup : ∀ n k, (L n k).Nodup
  bound : ∀ {n k f}, f ∈ L n k → n < MAX_NODES ∧ k < MAX_ORDER
  aligned : ∀ {n k f}, f ∈ L n k → 2 ^ k ∣ f
  page : ∀ {n k f g}, f ∈ L n k → InBlock f k g →
    A g ∧ ¬H g ∧ (s.info g).numaNode = n ∧ (s.info g).refcount = 0
  block : ∀ {n k f}, f ∈ L n k → (s.info f).order = k ∧ (s.info f).flags.free = true
  apart : ∀ {n k f m j e g}, f ∈ L n k → e ∈ L m j → InBlock f k g → InBlock e j g → k = j ∧ f = e
  hand : ∀ {g}, H g → A g
  known : ∀ {g}, A g → s.known g = true
  node : ∀ {g}, A g → (s.info g).numaNode < MAX_NODES
  flag : whole → ∀ {g}, (s.info g).flags.free = true → g ∈ L (s.info g).numaNode (s.info g).order
  count : whole → ∀ n, s.freePages n = L.pages n
  cover : whole → ∀ {g}, A g → H g ∨ (s.info g).refcount ≠ 0 ∨ L.Covers g

/-- An aligned block of node `n` whose pages nobody refers to. -/
structure Loose (s : State) (n f k : Nat) : Prop where
  node : n < MAX_NODES
  order : k < MAX_ORDER
  aligned : 2 ^ k ∣ f
  page : ∀ {g}, InBlock f k g → (s.info g).numaNode = n ∧ (s.info g).refcount = 0

section
variable {whole : Prop} {A H : Nat → Prop} {s t : State} {L : Lists} {n k f g : Nat} {m j b : Nat} {A' : Nat → Prop}

variable {pi : PageInfo} {c : Nat} {x : Option Nat} {H' : Nat → Prop}

theorem Inv.not_hand (h : Inv whole A H s L) (hg : L.Covers g) : ¬H g := by
  obtain ⟨n, k, f, hf, hin⟩ := hg
  exact (h.page hf hin).2.1

theorem Inv.refcount_eq_zero (h : Inv whole A H s L) (hg : L.Covers g) : (s.info g).refcount = 0 := by
  obtain ⟨n, k, f, hf, hin⟩ := hg
  exact (h.page hf hin).2.2.2

theorem Lists.covers_of_mem (hf : f ∈ L n k) : L.Covers f := ⟨n, k, f, hf, inBlock_self⟩

theorem Inv.unique (h : Inv whole A H s L) (hf : f ∈ L n k) (hf' : f ∈ L m j) : n = m ∧ k = j :=
  ⟨(h.page hf inBlock_self).2.2.1.symm.trans (h.page hf' inBlock_self).2.2.1,
    (h.block hf).1.symm.trans (h.block hf').1⟩

theorem apply_update {β : Type} (F : PageInfo → β) {info : Nat → PageInfo} (hF : F pi = F (info f))
    (g : Nat) : F (update info f pi g) = F (info g) := by
  by_cases hg : g = f
  · subst hg
    rw [update_self, hF]
  · rw [update_of_ne hg]

theorem info_upd : (((s.setInfo f pi).setHead n k x).setFreePages n c).info = update s.info f pi := rfl

theorem heads_upd : (((s.setInfo f pi).setHead n k x).setFreePages n c).heads m j =
    if m = n ∧ j = k then x else s.heads m j := by
  by_cases hm : m = n
  · subst hm
    by_cases hj : j = k <;> simp [setFreePages, setHead, setInfo, hj]
  · simp [setFreePages, setHead, setInfo, hm]

theorem freePages_upd : (((s.setInfo f pi).setHead n k x).setFreePages n c).freePages = update s.freePages n c := rfl

/-- What is done to pages on no list keeps the invariant. -/
theorem Inv.outside (h : Inv whole A H s L) (hheads : t.heads = s.heads)
    (hpages : whole → t.freePages = s.freePages) (hlen : t.len = s.len) (hinfo : ∀ {g}, L.Covers g → t.info g = s.info g)
    (hA : ∀ {g}, A g → A' g) (hknown : ∀ {g}, A' g → s.known g)
    (hnode : ∀ {g}, A' g → (t.info g).numaNode < MAX_NODES) (hH : ∀ {g}, L.Covers g → ¬H' g)
    (hhand : ∀ {g}, H' g → A' g)
    (hflag : whole → ∀ {g}, ¬L.Covers g → (t.info g).flags.free → (s.info g).flags.free)
    (hcover : whole → ∀ {g}, A' g → H' g ∨ (t.info g).refcount ≠ 0 ∨ L.Covers g) : Inv whole A' H' t L where
  chain n k := by
    rw [hheads]
    refine (h.chain n k).congr fun f hf => ?_
    rw [hinfo (Lists.covers_of_mem hf)]
  nodup := h.nodup
  bound := h.bound
  aligned := h.aligned
  page {n k f g} hf hin := by
    have hg : L.Covers g := ⟨n, k, f, hf, hin⟩
    have hpage := h.page hf hin
    rw [hinfo hg]
    exact ⟨hA hpage.1, hH hg, hpage.2.2⟩
  block hf := by
    rw [hinfo (Lists.covers_of_mem hf)]
    exact h.block hf
  apart := h.apart
  hand := hhand
  known hg := by
    unfold State.known
    rw [hlen]
    exact hknown hg
  node := hnode
  flag hw {g} hfree := by
    by_cases hg : L.Covers g
    · rw [hinfo hg] at hfree ⊢
      exact h.flag hw hfree
    · exact absurd (Lists.covers_of_mem (h.flag hw (hflag hw hg hfree))) hg
  count hw n := by rw [hpages hw, h.count hw n]
  cover := hcover

theorem Inv.setInfo (h : Inv whole A H s L) (hout : ¬L.Covers f)
    (hA : ∀ {g}, A g → A' g) (hA' : ∀ {g}, A' g → g = f ∨ A g) (hknown : A' f → s.known f)
    (hnode : A' f → pi.numaNode < MAX_NODES) (hH : ∀ {g}, H g → H' g) (hH' : ∀ {g}, H' g → g = f ∨ H g)
    (hhand : H' f → A' f) (hfree : pi.flags.free → (s.info f).flags.free)
    (hcover : whole → A' f → H' f ∨ pi.refcount ≠ 0) : Inv whole A' H' (s.setInfo f pi) L := by
  have hself : (s.setInfo f pi).info f = pi := update_self ..
  have hother : ∀ {g}, g ≠ f → (s.setInfo f pi).info g = s.info g := fun hne => update_of_ne hne _ _
  refine h.outside rfl (fun _ => rfl) rfl (fun hg => hother fun heq => hout (heq ▸ hg)) hA (fun {g} hg => ?_)
    (fun {g} hg => ?_) (fun {g} hg hg' => ?_) (fun {g} hg => ?_) (fun _ {g} _ hg => ?_) (fun hw {g} hg => ?_)
  · by_cases heq : g = f
    · subst heq
      exact hknown hg
    · exact h.known ((hA' hg).resolve_left heq)
  · by_cases heq : g = f
    · subst heq
      rw [hself]
      exact hnode hg
    · rw [hother heq]
      exact h.node ((hA' hg).resolve_left heq)
  · rcases hH' hg' with rfl | hh
    · exact hout hg
    · exact h.not_hand hg hh
  · by_cases heq : g = f
    · subst heq
      exact hhand hg
    · exact hA (h.hand ((hH' hg).resolve_left heq))
  · by_cases heq : g = f
    · subst heq
      rw [hself] at hg
      exact hfree hg
    · rwa [hother heq] at hg
  · by_cases heq : g = f
    · subst heq
      rw [hself, ← or_assoc]
      exact .inl (hcover hw hg)
    · rw [hother heq]
      exact (h.cover hw ((hA' hg).resolve_left heq)).imp_left hH

theorem buddyPop_eq_none (hc : Chain (fun g => (s.info g).freeNext) (s.heads n k) (L n k))
    (hpop : s.buddyPop n k = none) : L n k = [] := by
  unfold State.buddyPop at hpop
  split at hpop
  · rename_i hhead
    rw [hhead] at hc
    exact hc.eq_nil
  · cases hpop

section
variable (h : Inv whole A H s L)
include h

theorem Inv.unlinked {l : List Nat} (hl : L n k = f :: l)
    (hnode : pi.numaNode = (s.info f).numaNode) (hcnt : pi.refcount = (s.info f).refcount)
    (hfree : pi.flags.free = false) (hnext : pi.freeNext = (s.info f).freeNext) :
    Inv whole A (fun g => H g ∨ InBlock f k g)
      (((s.setInfo f pi).setHead n k (s.info f).freeNext).setFreePages n (s.freePages n - 2 ^ k)) (L.set n k l) := by
  have hf : f ∈ L n k := hl ▸ mem_cons_self
  have hnodup := nodup_cons.mp (hl ▸ h.nodup n k)
  -- what is still linked was linked before and is not `f`
  have hsub : ∀ {m j e}, e ∈ L.set n k l m j ↔ e ∈ L m j ∧ e ≠ f := by
    intro m j e
    rw [Lists.set_apply]
    split
    · rename_i heq
      obtain ⟨rfl, rfl⟩ := heq
      rw [hl, mem_cons]
      exact ⟨fun he => ⟨.inr he, fun heq => hnodup.1 (heq ▸ he)⟩, fun he => he.1.resolve_left he.2⟩
    · rename_i hne
      exact ⟨fun he => ⟨he, fun heq => hne (h.unique (heq ▸ he) hf)⟩, And.left⟩
  exact {
    chain := fun m j => by
      simp only [info_upd, heads_upd, apply_update PageInfo.freeNext hnext]
      rw [Lists.set_apply]
      split
      · have hchain := h.chain n k
        rw [hl] at hchain
        exact hchain.2
      · exact h.chain m j
    nodup := fun m j => by
      rw [Lists.set_apply]
      split
      · exact hnodup.2
      · exact h.nodup m j
    bound := fun he => h.bound (hsub.mp he).1
    aligned := fun he => h.aligned (hsub.mp he).1
    page := fun {m j e g} he hin => by
      obtain ⟨he, hne⟩ := hsub.mp he
      obtain ⟨ha, hh, hrest⟩ := h.page he hin
      simp only [info_upd, apply_update PageInfo.numaNode hnode, apply_update PageInfo.refcount hcnt]
      exact ⟨ha, not_or.mpr ⟨hh, fun hin' => hne (h.apart he hf hin hin').2⟩, hrest⟩
    block := fun he => by
      obtain ⟨he, hne⟩ := hsub.mp he
      rw [info_upd, update_of_ne hne]
      exact h.block he
    apart := fun he he' => h.apart (hsub.mp he).1 (hsub.mp he').1
    hand := fun hg => hg.elim h.hand fun hin => (h.page hf hin).1
    known := h.known
    node := fun hg => by
      simp only [info_upd, apply_update PageInfo.numaNode hnode]
      exact h.node hg
    flag := fun hw {g} hg => by
      rw [info_upd] at hg ⊢
      by_cases heq : g = f
      · rw [heq, update_self, hfree] at hg
        cases hg
      · rw [update_of_ne heq] at hg ⊢
        exact hsub.mpr ⟨h.flag hw hg, heq⟩
    count := fun hw m => by
      have hpages := L.pages_set n l (h.bound hf).2
      rw [hl, length_cons, Nat.mul_succ] at hpages
      rw [freePages_upd]
      by_cases hm : m = n
      · rw [hm, update_self, h.count hw n]
        omega
      · rw [update_of_ne hm, L.pages_set_of_ne k l hm]
        exact h.count hw m
    cover := fun hw {g} hg => by
      simp only [info_upd, apply_update PageInfo.refcount hcnt]
      rcases h.cover hw hg with hh | hr | ⟨m, j, e, he, hin⟩
      · exact .inl (.inl hh)
      · exact .inr (.inl hr)
      by_cases heq : e = f
      · subst heq
        obtain ⟨-, rfl⟩ := h.unique he hf
        exact .inl (.inr hin)
      · exact .inr (.inr ⟨m, j, e, hsub.mpr ⟨he, heq⟩, hin⟩) }

/-- The first block of a list comes into hand. -/
theorem Inv.buddyPop (hpop : s.buddyPop n k = some (f, t)) :
    ∃ l, L n k = f :: l ∧ Inv whole A (fun g => H g ∨ InBlock f k g) t (L.set n k l) ∧ Loose t n f k ∧
      (t.info f).order = k ∧ ∀ {g}, InBlock f k g → ¬H g := by
  unfold State.buddyPop at hpop
  split at hpop
  · cases hpop
  rename_i hhead
  cases hpop
  have hchain := h.chain n k
  rw [hhead] at hchain
  obtain ⟨l, hl, -⟩ := hchain.eq_cons
  have hf : f ∈ L n k := hl ▸ mem_cons_self
  refine ⟨l, hl, h.unlinked hl rfl rfl rfl rfl, ⟨(h.bound hf).1, (h.bound hf).2, h.aligned hf, fun {g} hin => ?_⟩, ?_,
    fun hin => (h.page hf hin).2.1⟩
  · rw [info_upd]
    by_cases heq : g = f
    · rw [heq, update_self]
      exact (h.page hf inBlock_self).2.2
    · rw [update_of_ne heq]
      exact (h.page hf hin).2.2
  · rw [info_upd, update_self]
    exact (h.block hf).1

/-! ### Putting a block on a list -/

theorem Inv.chain_linked (hnew : ∀ {m j e}, e ∈ L m j → e ≠ f) (hnext : pi.freeNext = s.heads n k) (m j : Nat) :
    Chain (fun g => (update s.info f pi g).freeNext) (if m = n ∧ j = k then some f else s.heads m j)
      (L.set n k (f :: L n k) m j) := by
  have hold : ∀ m j, Chain (fun g => (update s.info f pi g).freeNext) (s.heads m j) (L m j) := by
    intro m j
    refine (h.chain m j).congr fun e he => ?_
    rw [update_of_ne (hnew he)]
  rw [Lists.set_apply]
  split
  · refine ⟨rfl, ?_⟩
    beta_reduce
    rw [update_self, hnext]
    exact hold n k
  · exact hold m j

/-- A block of which all pages were in hand becomes the first of its list. -/
theorem Inv.linked (hb : Loose s n f k) (hH : ∀ {g}, H g ↔ H' g ∨ InBlock f k g) (hH' : ∀ {g}, H' g → ¬InBlock f k g)
    (hnode : pi.numaNode = (s.info f).numaNode) (hcnt : pi.refcount = (s.info f).refcount) (hord : pi.order = k)
    (hfree : pi.flags.free) (hnext : pi.freeNext = s.heads n k) :
    Inv whole A H' (((s.setInfo f pi).setHead n k (some f)).setFreePages n (s.freePages n + 2 ^ k))
      (L.set n k (f :: L n k)) := by
  have hin : ∀ {g}, InBlock f k g → H g := fun hg => hH.mpr (.inr hg)
  have hnew : ∀ {m j e}, e ∈ L m j → e ≠ f := by
    rintro m j e he rfl
    exact (h.page he inBlock_self).2.1 (hin inBlock_self)
  exact {
    chain := fun m j => by
      simp only [info_upd, heads_upd]
      exact h.chain_linked hnew hnext m j
    nodup := fun m j => by
      rw [Lists.set_apply]
      split
      · exact nodup_cons.mpr ⟨fun hmem => hnew hmem rfl, h.nodup n k⟩
      · exact h.nodup m j
    bound := fun he => by
      rcases Lists.mem_set_cons.mp he with ⟨rfl, rfl, rfl⟩ | he
      · exact ⟨hb.node, hb.order⟩
      · exact h.bound he
    aligned := fun he => by
      rcases Lists.mem_set_cons.mp he with ⟨rfl, rfl, rfl⟩ | he
      · exact hb.aligned
      · exact h.aligned he
    page := fun {m j e g} he hg => by
      simp only [info_upd, apply_update PageInfo.numaNode hnode, apply_update PageInfo.refcount hcnt]
      rcases Lists.mem_set_cons.mp he with ⟨rfl, rfl, rfl⟩ | he
      · exact ⟨h.hand (hin hg), fun hg' => hH' hg' hg, hb.page hg⟩
      · obtain ⟨ha, hh, hrest⟩ := h.page he hg
        exact ⟨ha, fun hg' => hh (hH.mpr (.inl hg')), hrest⟩
    block := fun he => by
      simp only [info_upd]
      rcases Lists.mem_set_cons.mp he with ⟨rfl, rfl, rfl⟩ | he
      · rw [update_self]
        exact ⟨hord, hfree⟩
      · rw [update_of_ne (hnew he)]
        exact h.block he
    apart := fun {m j e m' j' e' g} he he' hg hg' => by
      rcases Lists.mem_set_cons.mp he with ⟨rfl, rfl, rfl⟩ | hold <;>
        rcases Lists.mem_set_cons.mp he' with ⟨rfl, rfl, rfl⟩ | hold'
      · exact ⟨rfl, rfl⟩
      · exact absurd (hin hg) (h.page hold' hg').2.1
      · exact absurd (hin hg') (h.page hold hg).2.1
      · exact h.apart hold hold' hg hg'
    hand := fun hg => h.hand (hH.mpr (.inl hg))
    known := h.known
    node := fun hg => by
      simp only [info_upd, apply_update PageInfo.numaNode hnode]
      exact h.node hg
    flag := fun hw {g} hg => by
      simp only [info_upd] at hg ⊢
      by_cases heq : g = f
      · subst heq
        rw [update_self, hord, hnode, (hb.page inBlock_self).1]
        exact Lists.mem_set_cons.mpr (.inl ⟨rfl, rfl, rfl⟩)
      · rw [update_of_ne heq] at hg ⊢
        exact Lists.mem_set_cons.mpr (.inr (h.flag hw hg))
    count := fun hw m => by
      simp only [freePages_upd]
      rw [L.pages_cons n f hb.order, funext (h.count hw)]
    cover := fun hw {g} hg => by
      simp only [info_upd, apply_update PageInfo.refcount hcnt]
      rcases h.cover hw hg with hh | hr | ⟨m, j, e, he, hg⟩
      · rcases hH.mp hh with hh | hg
        · exact .inl hh
        · exact .inr (.inr ⟨n, k, f, Lists.mem_set_cons.mpr (.inl ⟨rfl, rfl, rfl⟩), hg⟩)
      · exact .inr (.inl hr)
      · exact .inr (.inr ⟨m, j, e, Lists.mem_set_cons.mpr (.inr he), hg⟩) }

theorem Inv.link {H' : Nat → Prop} (hb : Loose s n f k) (hord : (s.info f).order = k)
    (hH : ∀ {g}, H g ↔ H' g ∨ InBlock f k g) (hH' : ∀ {g}, H' g → ¬InBlock f k g) :
    Inv whole A H' (s.link n f k) (L.set n k (f :: L n k)) :=
  h.linked hb hH hH' rfl rfl hord rfl rfl

end

theorem setInfo_setInfo (s : State) (f : Nat) (pi pi' : PageInfo) : (s.setInfo f pi).setInfo f pi' = s.setInfo f pi' := by
  simp [State.setInfo]

theorem info_setInfo_self (s : State) (f : Nat) (pi : PageInfo) : (s.setInfo f pi).info f = pi :=
  update_self ..

theorem buddyPush_eq (hf : s.known f) :
    s.buddyPush n f k = ((s.setInfo f { s.info f with
      order := k, flags := { (s.info f).flags with free := true }, freeNext := s.heads n k }).setHead n k
        (some f)).setFreePages n (s.freePages n + 2 ^ k) := by
  rw [State.buddyPush, if_pos hf, State.link, info_setInfo_self, setInfo_setInfo]
  rfl

section
variable (h : Inv whole A H s L) (hb : Loose s n f k) (hH : ∀ {g}, H g ↔ H' g ∨ InBlock f k g)
    (hH' : ∀ {g}, H' g → ¬InBlock f k g)
include h hb hH hH'

theorem Inv.buddyPush : Inv whole A H' (s.buddyPush n f k) (L.set n k (f :: L n k)) := by
  have hf : A f := h.hand (hH.mpr (.inr inBlock_self))
  rw [buddyPush_eq (h.known hf)]
  exact h.linked hb hH hH' rfl rfl rfl rfl rfl

theorem Inv.pushMerged : Inv whole A H' (s.pushMerged n f k) (L.set n k (f :: L n k)) := by
  have hf := h.known (h.hand (hH.mpr (.inr inBlock_self)))
  rw [State.pushMerged, if_pos hf]
  rw [buddyPush_eq (s := s.setInfo f _) hf, info_setInfo_self, setInfo_setInfo]
  exact h.linked hb hH hH' rfl rfl rfl rfl rfl

end

/-! ### What list operations leave alone -/

/-- No page changes its references or its node. -/
structure Quiet (s t : State) : Prop where
  len : t.len = s.len
  ready : t.ready = s.ready
  live : t.live = s.live
  nodeCount : t.nodeCount = s.nodeCount
  bump : t.bump = s.bump
  bootFree : t.bootFree = s.bootFree
  refcount : ∀ g, (t.info g).refcount = (s.info g).refcount
  numaNode : ∀ g, (t.info g).numaNode = (s.info g).numaNode

theorem Quiet.refl (s : State) : Quiet s s := ⟨rfl, rfl, rfl, rfl, rfl, rfl, fun _ => rfl, fun _ => rfl⟩

theorem Quiet.trans {u : State} (h : Quiet s t) (h' : Quiet t u) : Quiet s u :=
  ⟨h'.len.trans h.len, h'.ready.trans h.ready, h'.live.trans h.live, h'.nodeCount.trans h.nodeCount, h'.bump.trans h.bump,
    h'.bootFree.trans h.bootFree, fun g => (h'.refcount g).trans (h.refcount g),
    fun g => (h'.numaNode g).trans (h.numaNode g)⟩

theorem Quiet.upd (hnode : pi.numaNode = (s.info f).numaNode)
    (hcnt : pi.refcount = (s.info f).refcount) : Quiet s (((s.setInfo f pi).setHead n k x).setFreePages n c) :=
  ⟨rfl, rfl, rfl, rfl, rfl, rfl, apply_update PageInfo.refcount hcnt, apply_update PageInfo.numaNode hnode⟩

theorem Quiet.link : Quiet s (s.link n f k) := Quiet.upd rfl rfl

theorem Quiet.buddyPop (hpop : s.buddyPop n k = some (f, t)) : Quiet s t := by
  unfold State.buddyPop at hpop
  split at hpop
  · cases hpop
  · cases hpop
    exact Quiet.upd rfl rfl

theorem Quiet.buddyPush : Quiet s (s.buddyPush n f k) := by
  by_cases hf : s.known f
  · rw [buddyPush_eq hf]
    exact Quiet.upd rfl rfl
  · rw [State.buddyPush, if_neg hf]
    exact Quiet.refl s

theorem Quiet.pushMerged : Quiet s (s.pushMerged n f k) := by
  refine Quiet.trans ?_ Quiet.buddyPush
  split
  · exact ⟨rfl, rfl, rfl, rfl, rfl, rfl, apply_update PageInfo.refcount rfl, apply_update PageInfo.numaNode rfl⟩
  · exact Quiet.refl s

theorem Quiet.keepAside : Quiet s (s.keepAside n f k) :=
  ⟨rfl, rfl, rfl, rfl, rfl, rfl, apply_update PageInfo.refcount rfl, apply_update PageInfo.numaNode rfl⟩

theorem Quiet.pushBack (popped : List Nat) : ∀ s, Quiet s (s.pushBack n k popped) := by
  induction popped with
  | nil => exact Quiet.refl
  | cons f popped ih => exact fun s => Quiet.trans Quiet.link (ih _)

theorem Quiet.removeLoop (room : Nat) (popped : List Nat) (s : State) :
    Quiet s (State.removeLoop n k b room popped s).2 := by
  fun_induction State.removeLoop n k b room popped s with
  | case1 room popped s hpop => exact Quiet.pushBack _ _
  | case2 room popped s t hpop => exact (Quiet.buddyPop hpop).trans (Quiet.pushBack _ _)
  | case3 popped s f t hpop hf room ih => exact (Quiet.buddyPop hpop).trans ih
  | case4 popped s f t hpop hf => exact ((Quiet.buddyPop hpop).trans Quiet.keepAside).trans (Quiet.pushBack _ _)

theorem Quiet.buddyRemove : Quiet s (s.buddyRemove n b k).2 := by
  unfold State.buddyRemove
  split
  · exact Quiet.removeLoop _ _ _
  · exact Quiet.refl s

theorem Loose.quiet (h : Loose s n f k) (hq : Quiet s t) : Loose t n f k :=
  ⟨h.node, h.order, h.aligned, fun {g} hg => by
    rw [hq.numaNode g, hq.refcount g]
    exact h.page hg⟩

end

end Moxide.Pmm
