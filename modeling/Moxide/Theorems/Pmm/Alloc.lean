import Moxide.Theorems.Pmm.Free

/-! Allocation. Whatever a page that `alloc_pages_contig` gives back is merged with was pushed last. -/

namespace Moxide.Pmm
open Lib List
open State

section
variable {whole : Prop} {A H : Nat → Prop} {s t : State} {L : Lists} {n k f order : Nat}

/-! ### Blocks -/

theorem Inv.split (cur : Nat) : ∀ {s L}, order ≤ cur → Inv whole A (InBlock f cur) s L → Loose s n f cur →
    ∃ L', Inv whole A (InBlock f order) (State.split n f order cur s) L' ∧
      Loose (State.split n f order cur s) n f order ∧ Quiet s (State.split n f order cur s) := by
  induction cur with
  | zero =>
    intro s L hle h hloose
    obtain rfl : order = 0 := Nat.le_zero.mp hle
    exact ⟨L, h, hloose, Quiet.refl s⟩
  | succ cur ih =>
    intro s L hle h hloose
    unfold State.split
    split
    · rename_i hcur
      have hhalf : ∀ {g}, InBlock (f + 2 ^ cur) cur g → InBlock f (cur + 1) g := fun hg => inBlock_succ.mpr (.inr hg)
      -- the page table already has the node that is stored
      have hnuma : (if s.known (f + 2 ^ cur) = true then
          s.setInfo (f + 2 ^ cur) { s.info (f + 2 ^ cur) with numaNode := n } else s) = s := by
        have hnode := (hloose.page (hhalf inBlock_self)).1
        split
        · simp [State.setInfo, ← hnode]
        · rfl
      have hup : Loose s n (f + 2 ^ cur) cur :=
        ⟨hloose.node, Nat.lt_of_succ_lt hloose.order, dvd_add_half hloose.aligned, fun hg => hloose.page (hhalf hg)⟩
      have hlow : Loose s n f cur :=
        ⟨hloose.node, Nat.lt_of_succ_lt hloose.order, dvd_of_le (Nat.le_succ cur) hloose.aligned,
          fun hg => hloose.page (inBlock_succ.mpr (.inl hg))⟩
      dsimp only
      rw [hnuma]
      have hpush := h.buddyPush hup (fun {g} => inBlock_succ) not_inBlock_both
      obtain ⟨L', hinv, hloose', hq⟩ := ih hcur hpush (hlow.quiet Quiet.buddyPush)
      exact ⟨L', hinv, hloose', Quiet.buddyPush.trans hq⟩
    · obtain rfl : order = cur + 1 := by omega
      exact ⟨L, h, hloose, Quiet.refl s⟩

theorem info_mark (hg : InBlock f order k) (hk : s.known k) :
    (s.mark n f order).info k =
      { s.info k with refcount := 1, order := order, flags := ⟨false, true⟩, numaNode := n } := if_pos ⟨hg, hk⟩

theorem info_mark_of_not (hg : ¬InBlock f order k) : (s.mark n f order).info k = s.info k := if_neg fun h => hg h.1

theorem Inv.mark (h : Inv whole A (InBlock f order) s L) (hn : n < MAX_NODES) : Inv whole A NoHand (s.mark n f order) L := by
  refine h.outside rfl (fun _ => rfl) rfl (fun hg => info_mark_of_not (h.not_hand hg)) id h.known (fun {g} hg => ?_)
    (fun _ => id) False.elim (fun _ {g} _ hfree => ?_) (fun hw {g} hg => ?_) <;>
    by_cases hin : InBlock f order g
  · rw [info_mark hin (h.known hg)]
    exact hn
  · rw [info_mark_of_not hin]
    exact h.node hg
  · rw [info_mark hin (h.known (h.hand hin))] at hfree
    cases hfree
  · rwa [info_mark_of_not hin] at hfree
  · rw [info_mark hin (h.known hg)]
    exact .inr (.inl (by simp))
  · rw [info_mark_of_not hin]
    exact .inr ((h.cover hw hg).resolve_left hin)

structure Taken (A : Nat → Prop) (s t : State) (n f order : Nat) : Prop where
  aligned : 2 ^ order ∣ f
  page : ∀ {g}, InBlock f order g → A g ∧ (s.info g).refcount = 0 ∧ (t.info g).numaNode = n
  rest : Recounted s t fun g => if InBlock f order g then 1 else (s.info g).refcount

theorem Inv.tryOrders (ts : List Nat) (h : Inv whole A NoHand s L) (hts : ∀ x ∈ ts, order ≤ x)
    (ht : State.tryOrders n order ts s = some (f, t)) : (∃ L', Inv whole A NoHand t L') ∧ Taken A s t n f order := by
  induction ts with
  | nil => cases ht
  | cons x ts ih =>
    unfold State.tryOrders at ht
    split at ht
    · exact ih (fun y hy => hts y (mem_cons_of_mem _ hy)) ht
    rename_i u hpop
    cases ht
    obtain ⟨l, -, hinv, hloose, -, -⟩ := h.buddyPop hpop
    have hhand : Inv whole A (InBlock f x) u (L.set n x l) := hinv.hand_congr fun g => by simp [NoHand]
    obtain ⟨L', hsplit, hloose', hq⟩ := hhand.split x (hts x mem_cons_self) hloose
    have hq' := (Quiet.buddyPop hpop).trans hq
    refine ⟨⟨L', hsplit.mark hloose.node⟩, hloose'.aligned, fun {g} hg => ?_, ?_⟩
    · have hA := hsplit.hand hg
      rw [info_mark hg (hsplit.known hA), ← hq'.refcount g]
      exact ⟨hA, (hloose'.page hg).2, rfl⟩
    · refine ⟨hq'.len, hq'.ready, hq'.live, hq'.nodeCount, hq'.bump, hq'.bootFree, fun g => ?_⟩
      split
      · rename_i hg
        rw [info_mark hg (hsplit.known (hsplit.hand hg))]
      · rename_i hg
        rw [info_mark_of_not hg]
        exact hq'.refcount g

theorem Inv.buddyAllocOrderNode (h : Inv whole A NoHand s L) (ht : s.buddyAllocOrderNode n order = some (f, t)) :
    (∃ L', Inv whole A NoHand t L') ∧ Taken A s t n f order := by
  unfold State.buddyAllocOrderNode at ht
  split at ht
  · cases ht
  · exact h.tryOrders _ (fun x hx => (mem_range'_1.mp hx).1) ht

theorem Inv.allocFrom (ns : List Nat) (h : Inv whole A NoHand s L) (ht : s.allocFrom order ns = some (f, t)) :
    (∃ L', Inv whole A NoHand t L') ∧ ∃ n, Taken A s t n f order := by
  induction ns with
  | nil => cases ht
  | cons n ns ih =>
    unfold State.allocFrom at ht
    split at ht
    · rename_i r hr
      cases ht
      obtain ⟨hinv, htaken⟩ := h.buddyAllocOrderNode hr
      exact ⟨hinv, n, htaken⟩
    · exact ih ht

end

/-! ### Trimming -/

/-- The blocks pushed while the block at `f` is trimmed are in front of their list, the higher ones first. -/
def Stacked (f k n x i : Nat) (l : List Nat) : Prop :=
  ∃ st rest, l = st ++ rest ∧ st.Pairwise (· > ·) ∧ (∀ q ∈ st, f + n ≤ q ∧ q + 2 ^ i ≤ f + x) ∧
    ∀ q ∈ rest, ¬InBlock f k q

/-- Of the block of order `k` at `f` the first `n` pages are kept and those from `n` up to `x` have been freed. -/
structure Trimming (whole : Prop) (A : Nat → Prop) (s : State) (L : Lists) (m f k n x : Nat) : Prop where
  inv : Inv whole A NoHand s L
  aligned : 2 ^ k ∣ f
  page : ∀ {g}, InBlock f k g → A g ∧ (s.info g).numaNode = m
  out : ∀ {g}, InBlock f k g → g < f + n ∨ f + x ≤ g → (s.info g).refcount ≠ 0
  stacked : whole → ∀ i, Stacked f k n x i (L m i)

section
variable {whole : Prop} {A : Nat → Prop} {s : State} {L : Lists} {m f k n x i : Nat}

theorem Trimming.not_covers (h : Trimming whole A s L m f k n x) {g : Nat} (hg : InBlock f k g)
    (hout : g < f + n ∨ f + x ≤ g) : ¬L.Covers g := fun hc => h.out hg hout (h.inv.refcount_eq_zero hc)

theorem Trimming.half_not_linked (h : Trimming whole A s L m f (k + 1) n x) (hn : 2 ^ (k + 1) < 2 * n) (hnx : n ≤ x)
    (hx : x < 2 ^ (k + 1)) : buddyOf (f + x) k ∉ L m k := by
  have hhalf : blockOf (f + x) k = f + 2 ^ k :=
    blockOf_of_inBlock (dvd_add_half h.aligned) ⟨by omega, by omega⟩
  have hwhole : blockOf (f + 2 ^ k) (k + 1) = f := blockOf_of_inBlock h.aligned ⟨by omega, by omega⟩
  have hbud : buddyOf (f + x) k = f := by
    rw [buddyOf, hhalf]
    rcases buddy_cases (dvd_add_half h.aligned) with ⟨heq, -⟩ | ⟨heq, -⟩
    · omega
    · exact heq.symm.trans hwhole
  rw [hbud]
  exact fun hmem => h.not_covers inBlock_self (.inl (by omega)) (Lists.covers_of_mem hmem)

theorem inBlock_buddyOf {X j : Nat} (hal : 2 ^ k ∣ f) (hX : InBlock f k X) (hj : j < k) : InBlock f k (buddyOf X j) := by
  have hmerge := inBlock_merge (g := buddyOf X j) (dvd_blockOf (f := X) (k := j))
  rw [blockOf_blockOf (Nat.le_succ j)] at hmerge
  exact inBlock_of_blockOf hal hX hj (hmerge.mpr (.inr inBlock_self))

theorem Trimming.top (h : Trimming whole A s L m f k n x) (hw : whole) (hx : x < 2 ^ k) (hi : i < k)
    (hmem : buddyOf (f + x) i ∈ L m i) :
    ∃ l, L m i = buddyOf (f + x) i :: l ∧ Stacked f k n x i l := by
  have hX : InBlock f k (f + x) := ⟨Nat.le_add_right f x, by omega⟩
  have hq := inBlock_buddyOf h.aligned hX hi
  have hblock := inBlock_blockOf (g := f + x) (k := i)
  obtain ⟨st, rest, hl, hsort, hst, hrest⟩ := h.stacked hw i
  -- the buddy lies below the page: above it everything is still handed out
  have hlow : blockOf (f + x) i = buddyOf (f + x) i + 2 ^ i := by
    rcases buddy_cases (dvd_blockOf (f := f + x) (k := i)) with ⟨-, heq⟩ | ⟨-, heq⟩
    · refine absurd (Lists.covers_of_mem hmem) (h.not_covers hq (.inr ?_))
      rw [buddyOf, heq]
      exact le_of_lt hblock.2
    · exact heq
  rw [hl, mem_append] at hmem
  have hmem := hmem.resolve_right fun hr => hrest _ hr hq
  cases st with
  | nil => cases hmem
  | cons e st =>
    have hsort' := pairwise_cons.mp hsort
    have he : e = buddyOf (f + x) i := by
      rcases mem_cons.mp hmem with heq | hmem
      · exact heq.symm
      -- a block above the buddy and below the page would overlap neither
      exfalso
      have hlt := hsort'.1 _ hmem
      have hdvd : 2 ^ i ∣ e := h.inv.aligned (hl ▸ mem_append_left _ mem_cons_self)
      have hgap := add_le_of_lt (dvd_buddy dvd_blockOf) hdvd hlt
      have hend := (hst e mem_cons_self).2
      have := hblock.2
      unfold buddyOf at hlow
      omega
    subst he
    exact ⟨st ++ rest, hl, st, rest, rfl, hsort'.2, fun q hq => hst q (mem_cons_of_mem _ hq), hrest⟩

theorem Trimming.near (h : Trimming whole A s L m f (k + 1) n x) (hw : whole) (hn : 2 ^ (k + 1) < 2 * n) (hnx : n ≤ x)
    (hx : x < 2 ^ (k + 1)) : Near (L m) (f + x) 0 := by
  rintro j - ⟨-, hprev, hmem⟩
  rcases Nat.lt_or_ge j (k + 1) with hj | hj
  · obtain ⟨l, hl, -⟩ := h.top hw hx hj hmem
    simp [hl]
  · exact absurd (hprev k hj (Nat.zero_le k)) (h.half_not_linked hn hnx hx)

theorem Stacked.mono {l : List Nat} {y : Nat} (h : Stacked f k n x i l) (hxy : x ≤ y) : Stacked f k n y i l := by
  obtain ⟨st, rest, hl, hsort, hst, hrest⟩ := h
  exact ⟨st, rest, hl, hsort, fun q hq => ⟨(hst q hq).1, by have := (hst q hq).2; omega⟩, hrest⟩

theorem Trimming.push {t : State} {L' : Lists} (h : Trimming whole A s L m f k n x) (hw : whole) (hx : x < 2 ^ k)
    (hi : i < k) (hinv : Inv whole A NoHand t L') (hlist : L' m i = blockOf (f + x) i :: L m i)
    (hout : ∀ {g}, InBlock f k g → g < f + n ∨ f + (x + 1) ≤ g → (t.info g).refcount ≠ 0) :
    Stacked f k n (x + 1) i (L' m i) := by
  have hX : InBlock f k (f + x) := ⟨Nat.le_add_right f x, by omega⟩
  have hmem : blockOf (f + x) i ∈ L' m i := hlist ▸ mem_cons_self
  have hfreed : ∀ {g}, InBlock (blockOf (f + x) i) i g → f + n ≤ g ∧ g < f + (x + 1) := by
    intro g hg
    have hzero := hinv.refcount_eq_zero ⟨m, i, _, hmem, hg⟩
    refine Classical.byContradiction fun hne => hout (inBlock_of_blockOf h.aligned hX (le_of_lt hi) hg) ?_ hzero
    omega
  have hpos := Nat.two_pow_pos i
  have hfirst := hfreed inBlock_self
  have hlast := hfreed (g := blockOf (f + x) i + 2 ^ i - 1) ⟨by omega, by omega⟩
  have hblock := inBlock_blockOf (g := f + x) (k := i)
  obtain ⟨st, rest, hl, hsort, hst, hrest⟩ := h.stacked hw i
  refine ⟨blockOf (f + x) i :: st, rest, by rw [hlist, hl, cons_append], pairwise_cons.mpr ⟨?_, hsort⟩, ?_, hrest⟩
  · intro e he
    have hend := (hst e he).2
    have := hblock.2
    omega
  · intro q hq
    rcases mem_cons.mp hq with rfl | hq
    · omega
    · have := hst q hq
      omega

theorem Trimming.step (h : Trimming whole A s L m f (k + 1) n x) (hn : 2 ^ (k + 1) < 2 * n) (hnx : n ≤ x)
    (hx : x < 2 ^ (k + 1)) : ∃ L', Trimming whole A (s.buddyFreePage (f + x)) L' m f (k + 1) n (x + 1) := by
  have hX : InBlock f (k + 1) (f + x) := ⟨Nat.le_add_right f x, by omega⟩
  obtain ⟨hA, hm⟩ := h.page hX
  have hknown := h.inv.known hA
  obtain ⟨L', hinv, hL'⟩ := h.inv.buddyFreePage hA (h.not_covers hX (.inr le_rfl))
    fun hw => hm ▸ h.near hw hn hnx hx
  have hout : ∀ {g}, InBlock f (k + 1) g → g < f + n ∨ f + (x + 1) ≤ g →
      ((s.buddyFreePage (f + x)).info g).refcount ≠ 0 := by
    intro g hg hgout
    have hne : g ≠ f + x := by omega
    rw [(Recounted.buddyFreePage hknown).refcount g, Function.update_of_ne hne]
    exact h.out hg (by omega)
  refine ⟨L', hinv, h.aligned, fun {g} hg => ?_, hout, fun hw i => ?_⟩
  · rw [numaNode_buddyFreePage hknown]
    exact h.page hg
  · obtain ⟨j, -, rfl, hlinked⟩ := hL' hw
    rw [hm] at hlinked hinv ⊢
    have hj : j < k + 1 := Nat.lt_of_not_le fun hle => h.half_not_linked hn hnx hx (hlinked k hle)
    rcases Nat.lt_trichotomy i j with hij | rfl | hij
    · obtain ⟨l, hl, hstack⟩ := h.top hw hx (Nat.lt_trans hij hj) (hlinked i hij)
      have hlist : L.freed m (f + x) j m i = l := by
        rw [Lists.freed, Lists.set_apply, if_neg (by omega), Lists.merged, if_pos ⟨rfl, Nat.zero_le i, hij⟩, hl,
          unlink_head]
      rw [hlist]
      exact hstack.mono (Nat.le_succ x)
    · refine h.push hw hx hj hinv ?_ hout
      rw [Lists.freed, Lists.set_same]
    · have hlist : L.freed m (f + x) j m i = L m i := by
        rw [Lists.freed, Lists.set_apply, if_neg (by omega), Lists.merged, if_neg (by omega)]
      rw [hlist]
      exact (h.stacked hw i).mono (Nat.le_succ x)

theorem Trimming.run (hn : 2 ^ (k + 1) < 2 * n) (d : Nat) : ∀ {s L x}, x + d = 2 ^ (k + 1) → n ≤ x →
    Trimming whole A s L m f (k + 1) n x →
    ∃ L', Inv whole A NoHand ((List.range' x d).foldl (fun s j => s.buddyFreePage (f + j)) s) L' := by
  induction d with
  | zero => exact fun _ _ h => ⟨_, h.inv⟩
  | succ d ih =>
    intro s L x hd hnx h
    obtain ⟨L', h'⟩ := h.step hn hnx (by omega)
    exact ih (by omega) (Nat.le_succ_of_le hnx) h'

theorem Recounted.trimLoop (d : Nat) : ∀ {s x}, (∀ j, x ≤ j → j < x + d → s.known (f + j)) →
    Recounted s ((List.range' x d).foldl (fun s j => s.buddyFreePage (f + j)) s)
      fun g => if f + x ≤ g ∧ g < f + x + d then 0 else (s.info g).refcount := by
  induction d with
  | zero =>
    intro s x _
    exact (Recounted.refl s).congr fun g => (if_neg (by omega)).symm
  | succ d ih =>
    intro s x hknown
    have hfree := Recounted.buddyFreePage (hknown x (le_refl x) (by omega))
    have hrest := ih (s := s.buddyFreePage (f + x)) (x := x + 1) fun j hj hlt => by
      have := hknown j (by omega) (by omega)
      unfold State.known at this ⊢
      rwa [hfree.len]
    refine (hfree.trans hrest).congr fun g => ?_
    rw [hfree.refcount g]
    by_cases hg : g = f + x
    · rw [hg, Function.update_self, if_neg (by omega), if_pos (by omega)]
    rw [Function.update_of_ne hg]
    split
    · rw [if_pos (by omega)]
    · rw [if_neg (by omega)]

end

end Moxide.Pmm
