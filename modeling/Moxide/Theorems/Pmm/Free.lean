import Moxide.Theorems.Pmm.Base

/-! Merging, and `buddy_remove`, which has room for `POPPED_LEN` of the blocks that it passes over. -/

namespace Moxide.Pmm
open Lib List
open State

def unlink (b : Nat) (l : List Nat) : List Nat := (l.take (l.idxOf b)).reverse ++ l.drop (l.idxOf b + 1)

theorem unlink_head (b : Nat) (l : List Nat) : unlink b (b :: l) = l := by simp [unlink]

@[simp]
theorem Lists.set_set (L : Lists) (n k : Nat) (l l' : List Nat) : (L.set n k l).set n k l' = L.set n k l' := by
  simp [Lists.set]

theorem Lists.set_self (L : Lists) (n k : Nat) : L.set n k (L n k) = L := by simp [Lists.set]

section
variable {whole : Prop} {A H : Nat → Prop} {s t : State} {L : Lists} {n k f b : Nat} {H' : Nat → Prop} {pi : PageInfo}
  {popped l : List Nat} {j : Nat} {u : State} {count count' : Nat → UInt32}

theorem Inv.hand_congr (h : Inv whole A H s L) (hH : ∀ g, H g ↔ H' g) : Inv whole A H' s L :=
  (funext fun g => propext (hH g) : H = H') ▸ h

/-- A block that was popped and can be put back: it keeps its order, and none of its pages was in hand before. -/
structure Popped (H : Nat → Prop) (s : State) (n k f : Nat) : Prop where
  loose : Loose s n f k
  order : (s.info f).order = k
  fresh : ∀ {g}, InBlock f k g → ¬H g

theorem order_upd {x : Option Nat} {c : Nat} (hord : pi.order = (s.info f).order) (g : Nat) :
    ((((s.setInfo f pi).setHead n k x).setFreePages n c).info g).order = (s.info g).order :=
  apply_update PageInfo.order hord g

theorem order_link (g : Nat) : ((s.link n f k).info g).order = (s.info g).order := by
  refine order_upd ?_ g
  rfl

theorem order_buddyPop (hpop : s.buddyPop n k = some (f, t)) (g : Nat) : (t.info g).order = (s.info g).order := by
  unfold State.buddyPop at hpop
  split at hpop
  · cases hpop
  · cases hpop
    refine order_upd ?_ g
    rfl

theorem Popped.quiet (h : Popped H s n k f) (hq : Quiet s t) (hord : ∀ g, (t.info g).order = (s.info g).order) :
    Popped H t n k f :=
  ⟨h.loose.quiet hq, (hord f).trans h.order, h.fresh⟩

def Out (H : Nat → Prop) (k : Nat) (popped : List Nat) (g : Nat) : Prop := H g ∨ ∃ p ∈ popped, InBlock p k g

theorem Inv.pushBack (popped : List Nat) : ∀ {s L}, Inv whole A (Out H k popped) s L → popped.Nodup →
    (∀ p ∈ popped, Popped H s n k p) → Inv whole A H (s.pushBack n k popped) (L.set n k (popped.reverse ++ L n k)) := by
  induction popped with
  | nil =>
    intro s L h _ _
    rw [reverse_nil, nil_append, Lists.set_self]
    exact h.hand_congr fun g => by simp [Out]
  | cons p popped ih =>
    intro s L h hnodup hpop
    obtain ⟨hnot, hnodup⟩ := nodup_cons.mp hnodup
    have hp := hpop p mem_cons_self
    have hlink : Inv whole A (Out H k popped) (s.link n p k) (L.set n k (p :: L n k)) := by
      refine h.link hp.loose hp.order (fun {g} => ?_) fun {g} hg hin => ?_
      · simp only [Out, exists_mem_cons_iff]
        exact (or_congr_right or_comm).trans or_assoc.symm
      · rcases hg with hg | ⟨q, hq, hin'⟩
        · exact hp.fresh hin hg
        · have hq' := hpop q (mem_cons_of_mem _ hq)
          exact hnot (inBlock_inj hp.loose.aligned hq'.loose.aligned hin hin' ▸ hq)
    have hrest := ih hlink hnodup fun q hq => (hpop q (mem_cons_of_mem _ hq)).quiet Quiet.link order_link
    rw [Lists.set_same, Lists.set_set] at hrest
    rw [reverse_cons, append_assoc]
    exact hrest

/-- What `buddy_remove` does to the list: it finds the block and takes it into hand, or it does not, which under `whole`
    cannot be. -/
structure Found (whole : Prop) (A H : Nat → Prop) (t : State) (L : Lists) (n k b : Nat) (l : List Nat) : Prop where
  mem : b ∈ L n k
  inv : Inv whole A (fun g => H g ∨ InBlock b k g) t (L.set n k l)
  loose : Loose t n b k
  fresh : ∀ {g}, InBlock b k g → ¬H g

def Missed (whole : Prop) (A H : Nat → Prop) (t : State) (L : Lists) (n k : Nat) : Prop :=
  ¬whole ∧ ∃ l, Inv whole A H t (L.set n k l)

theorem order_keepAside (g : Nat) : ((s.keepAside n f k).info g).order = (s.info g).order := by
  unfold State.keepAside
  by_cases hg : g = f
  · subst hg
    simp [setFreePages, setInfo]
  · simp [setFreePages, setInfo, hg]

theorem Inv.keepAside (h : Inv whole A H s L) (hw : ¬whole) (hH : ∀ {g}, H' g → H g)
    (hf : ¬L.Covers f) : Inv whole A H' (s.keepAside n f k) L := by
  refine h.outside rfl (fun w => absurd w hw) rfl (fun {g} hg => ?_) id h.known (fun {g} hg => ?_)
    (fun hg hg' => h.not_hand hg (hH hg')) (fun hg => h.hand (hH hg)) (fun w => absurd w hw) (fun w => absurd w hw)
  · have hne : g ≠ f := fun heq => hf (heq ▸ hg)
    exact Function.update_of_ne hne _ _
  · rw [Quiet.keepAside.numaNode g]
    exact h.node hg

section
variable (h : Inv whole A (Out H k popped) s L) (hnodup : popped.Nodup) (hpop : ∀ p ∈ popped, Popped H s n k p)
include h hnodup hpop

theorem Inv.missed (hw : ¬whole) : Missed whole A H (s.pushBack n k popped) L n k :=
  ⟨hw, _, h.pushBack popped hnodup hpop⟩

theorem Inv.found (hb : s.buddyPop n k = some (b, t)) (hl : L n k = b :: l) :
    Found whole A H (t.pushBack n k popped) L n k b (popped.reverse ++ l) := by
  obtain ⟨l', hl', hinv, hloose, -, hfresh⟩ := h.buddyPop hb
  obtain rfl : l' = l := List.cons.inj (hl'.symm.trans hl) |>.2
  have hout : Inv whole A (Out (fun g => H g ∨ InBlock b k g) k popped) t (L.set n k l') :=
    hinv.hand_congr fun g => by
      exact or_right_comm
  have hpop' : ∀ p ∈ popped, Popped (fun g => H g ∨ InBlock b k g) t n k p := by
    intro p hp
    refine ⟨(hpop p hp).loose.quiet (Quiet.buddyPop hb), (order_buddyPop hb p).trans (hpop p hp).order,
      fun {g} hg hh => ?_⟩
    rcases hh with hh | hg'
    · exact (hpop p hp).fresh hg hh
    · exact hfresh hg' (.inr ⟨p, hp, hg⟩)
  have hback := hout.pushBack popped hnodup hpop'
  rw [Lists.set_same, Lists.set_set] at hback
  exact ⟨hl ▸ mem_cons_self, hback, hloose.quiet (Quiet.pushBack popped t), fun hg hh => hfresh hg (.inl hh)⟩

end

/-- What `buddy_remove` has done when it ends with `r`, the blocks of `popped` being out already. -/
def Removed (whole : Prop) (A H : Nat → Prop) (L : Lists) (n k b : Nat) (popped : List Nat) (r : Bool × State) : Prop :=
  (∃ t, r = (true, t) ∧ Found whole A H t L n k b
    ((popped ++ (L n k).take ((L n k).idxOf b)).reverse ++ (L n k).drop ((L n k).idxOf b + 1))) ∨
  (∃ t, r = (false, t) ∧ Missed whole A H t L n k)

theorem Removed.cons {r : Bool × State} (hl : L n k = f :: l) (hf : f ≠ b)
    (h : Removed whole A H (L.set n k l) n k b (popped ++ [f]) r) : Removed whole A H L n k b popped r := by
  unfold Removed at h ⊢
  rw [hl, idxOf_cons_ne _ hf]
  rcases h with ⟨u, hu, hmem, hinv, hloose, hfresh⟩ | ⟨u, hu, hw, l', hmiss⟩
  · rw [Lists.set_same] at hmem
    refine .inl ⟨u, hu, hl ▸ mem_cons_of_mem _ hmem, ?_, hloose, hfresh⟩
    simpa using hinv
  · rw [Lists.set_set] at hmiss
    exact .inr ⟨u, hu, hw, l', hmiss⟩

theorem Inv.removeLoop {room : Nat} (h : Inv whole A (Out H k popped) s L) (hnodup : popped.Nodup)
    (hpop : ∀ p ∈ popped, Popped H s n k p) (hnear : whole → b ∈ L n k ∧ (L n k).idxOf b ≤ room) :
    Removed whole A H L n k b popped (State.removeLoop n k b room popped s) := by
  fun_induction State.removeLoop n k b room popped s generalizing L with
  | case1 room popped s hb =>
    have hnil := buddyPop_eq_none (h.chain n k) hb
    exact .inr ⟨_, rfl, h.missed hnodup hpop fun hw => by simpa [hnil] using (hnear hw).1⟩
  | case2 room popped s t hb =>
    obtain ⟨l, hl, -⟩ := h.buddyPop hb
    refine .inl ⟨_, rfl, ?_⟩
    simpa [hl] using h.found hnodup hpop hb hl
  | case3 popped s f t hb hf room ih =>
    obtain ⟨l, hl, hinv, hloose, hord, hfresh⟩ := h.buddyPop hb
    have hout : Inv whole A (Out H k (popped ++ [f])) t (L.set n k l) :=
      hinv.hand_congr fun g => by simp [Out, or_and_right, exists_or, or_assoc]
    have hpop' : ∀ p ∈ popped ++ [f], Popped H t n k p := by
      intro p hp
      rcases mem_append.mp hp with hp | hp
      · exact (hpop p hp).quiet (Quiet.buddyPop hb) (order_buddyPop hb)
      · obtain rfl := mem_singleton.mp hp
        exact ⟨hloose, hord, fun hg hh => hfresh hg (.inl hh)⟩
    have hnodup' : (popped ++ [f]).Nodup := by
      refine nodup_append.mpr ⟨hnodup, nodup_singleton f, fun p hp q hq heq => ?_⟩
      obtain rfl := mem_singleton.mp hq
      exact hfresh inBlock_self (.inr ⟨p, hp, heq ▸ inBlock_self⟩)
    refine Removed.cons hl hf (ih hout hnodup' hpop' fun hw => ?_)
    have hmem := hnear hw
    rw [hl, idxOf_cons_ne _ hf] at hmem
    rw [Lists.set_same]
    exact ⟨(mem_cons.mp hmem.1).resolve_left fun heq => hf heq.symm, Nat.le_of_succ_le_succ hmem.2⟩
  | case4 popped s f t hb hf =>
    -- the block popped has no room, and it is not the one looked for
    obtain ⟨l, hl, hinv, -⟩ := h.buddyPop hb
    have hw : ¬whole := fun hw => by
      have hidx := (hnear hw).2
      rw [hl, idxOf_cons_ne _ hf] at hidx
      cases hidx
    have haside : Inv whole A (Out H k popped) (t.keepAside n f k) (L.set n k l) :=
      hinv.keepAside hw .inl fun hg => hinv.not_hand hg (.inr inBlock_self)
    have hback := haside.pushBack (n := n) popped hnodup fun p hp =>
      (hpop p hp).quiet ((Quiet.buddyPop hb).trans Quiet.keepAside)
        fun g => (order_keepAside g).trans (order_buddyPop hb g)
    rw [Lists.set_set] at hback
    exact .inr ⟨_, rfl, hw, _, hback⟩

theorem Inv.buddyRemove (h : Inv whole A H s L) (hb : s.known b)
    (hnear : whole → b ∈ L n k ∧ (L n k).idxOf b ≤ POPPED_LEN) :
    (∃ t, s.buddyRemove n b k = (true, t) ∧ Found whole A H t L n k b (unlink b (L n k))) ∨
    (∃ t, s.buddyRemove n b k = (false, t) ∧ Missed whole A H t L n k) := by
  have hout : Inv whole A (Out H k []) s L := h.hand_congr fun g => by simp [Out]
  rw [State.buddyRemove, if_pos hb]
  exact hout.removeLoop nodup_nil (fun p hp => absurd hp not_mem_nil) hnear

/-! ### Merging -/

def buddyOf (f i : Nat) : Nat := buddy (blockOf f i) i

theorem buddyOf_blockOf {i : Nat} (hij : i ≤ j) : buddyOf (blockOf f i) j = buddyOf f j := by
  unfold buddyOf
  rw [blockOf_blockOf hij]

/-- From order `k` up, each block that `f` is merged with is among the first `POPPED_LEN + 1` of its list. -/
def Near (lists : Nat → List Nat) (f k : Nat) : Prop :=
  ∀ j < MAX_ORDER - 1, k ≤ j ∧ (∀ i < j, k ≤ i → buddyOf f i ∈ lists i) ∧ buddyOf f j ∈ lists j →
    (lists j).idxOf (buddyOf f j) ≤ POPPED_LEN

instance (lists : Nat → List Nat) (f k : Nat) : Decidable (Near lists f k) := by
  unfold Near
  infer_instance

def Lists.merged (L : Lists) (n f k j : Nat) : Lists := fun m i =>
  if m = n ∧ k ≤ i ∧ i < j then unlink (buddyOf f i) (L n i) else L m i

theorem Lists.merged_refl (L : Lists) (n f k : Nat) : L.merged n f k k = L := by
  funext m i
  rw [Lists.merged, if_neg (by omega)]

theorem Lists.merged_set (hkj : k < j) :
    (L.set n k (unlink (buddyOf f k) (L n k))).merged n f (k + 1) j = L.merged n f k j := by
  funext m i
  unfold Lists.merged
  by_cases hm : m = n
  · subst hm
    rcases Nat.lt_trichotomy i k with hlt | rfl | hlt
    · rw [if_neg (by omega), if_neg (by omega), Lists.set_apply, if_neg (by omega)]
    · rw [if_neg (by omega), if_pos ⟨rfl, le_refl i, hkj⟩, Lists.set_same]
    · by_cases hij : i < j
      · rw [if_pos ⟨rfl, hlt, hij⟩, if_pos ⟨rfl, le_of_lt hlt, hij⟩, Lists.set_apply, if_neg (by omega)]
      · rw [if_neg (by omega), if_neg (by omega), Lists.set_apply, if_neg (by omega)]
  · simp [Lists.set_apply, hm]

structure Merged (whole : Prop) (A : Nat → Prop) (L : Lists) (n f k : Nat) (r : Nat × Nat × State) : Prop where
  start : r.1 = blockOf f r.2.1
  le : k ≤ r.2.1
  loose : Loose r.2.2 n r.1 r.2.1
  linked : whole → ∀ i, k ≤ i → i < r.2.1 → buddyOf f i ∈ L n i
  inv : ∃ L', Inv whole A (InBlock r.1 r.2.1) r.2.2 L' ∧ (whole → L' = L.merged n f k r.2.1)

theorem Inv.stopMerge {L' : Lists} (h : Inv whole A (InBlock f k) s L') (hloose : Loose s n f k) (hL : whole → L' = L) :
    Merged whole A L n f k (f, k, s) where
  start := (blockOf_of_dvd hloose.aligned).symm
  le := le_refl k
  loose := hloose
  linked _ _ hi hlt := absurd hlt (not_lt.mpr hi)
  inv := ⟨L', h, fun hw => (hL hw).trans (L.merged_refl n f k).symm⟩

theorem Inv.mergeLoop (left : Nat) : ∀ {f k s L}, k + left + 1 = MAX_ORDER → Inv whole A (InBlock f k) s L →
    Loose s n f k → (whole → Near (L n) f k) → Merged whole A L n f k (State.mergeLoop n left f k s) := by
  induction left with
  | zero => exact fun _ h hloose _ => h.stopMerge hloose fun _ => rfl
  | succ left ih =>
    intro f k s L hleft h hloose hnear
    unfold State.mergeLoop
    dsimp only
    split
    · rename_i hcond
      obtain ⟨-, hknown, hfree, -, hord, hnode, -⟩ := hcond
      have hbud : buddyOf f k = buddy f k := by rw [buddyOf, blockOf_of_dvd hloose.aligned]
      have hfind : whole → buddy f k ∈ L n k ∧ (L n k).idxOf (buddy f k) ≤ POPPED_LEN := by
        intro hw
        have hmem := h.flag hw hfree
        rw [hnode, hord] at hmem
        have hidx := hnear hw k (by omega)
        rw [hbud] at hidx
        exact ⟨hmem, hidx ⟨le_refl k, fun i hlt hi => absurd hlt (not_lt.mpr hi), hmem⟩⟩
      have hq := Quiet.buddyRemove (s := s) (n := n) (k := k) (b := buddy f k)
      rcases h.buddyRemove hknown hfind with ⟨t, ht, hfound⟩ | ⟨t, ht, hw, l, hmiss⟩
      · rw [ht] at hq ⊢
        rw [min_buddy hloose.aligned]
        have hin := fun g => inBlock_merge (g := g) hloose.aligned
        have hloose' : Loose t n (blockOf f (k + 1)) (k + 1) := by
          refine ⟨hloose.node, by omega, dvd_blockOf, fun {g} hg => ?_⟩
          rcases (hin g).mp hg with hg | hg
          · exact (hloose.quiet hq).page hg
          · exact hfound.loose.page hg
        -- above order `k` the lists and the blocks to be merged with are those of `f`
        have hup : ∀ {i}, k + 1 ≤ i → L.set n k (unlink (buddy f k) (L n k)) n i = L n i := fun hi => by
          rw [Lists.set_apply, if_neg (by omega)]
        have hnear' : whole → Near (L.set n k (unlink (buddy f k) (L n k)) n) (blockOf f (k + 1)) (k + 1) := by
          rintro hw j hlt ⟨hj, hprev, hmem⟩
          rw [hup hj, buddyOf_blockOf hj] at hmem ⊢
          refine hnear hw j hlt ⟨by omega, fun i hij hi => ?_, hmem⟩
          rcases Nat.lt_or_eq_of_le hi with hi | rfl
          · have hmem' := hprev i hij hi
            rwa [hup hi, buddyOf_blockOf hi] at hmem'
          · rw [hbud]
            exact hfound.mem
        have hrec := ih (by omega) (hfound.inv.hand_congr fun g => (hin g).symm) hloose' hnear'
        obtain ⟨L', hinv, hL'⟩ := hrec.inv
        refine ⟨hrec.start.trans (blockOf_blockOf hrec.le), Nat.le_of_succ_le hrec.le, hrec.loose, ?_, L', hinv, ?_⟩
        · intro hw i hi hlt
          rcases Nat.lt_or_eq_of_le hi with hi | rfl
          · have hmem := hrec.linked hw i hi hlt
            rwa [hup hi, buddyOf_blockOf hi] at hmem
          · rw [hbud]
            exact hfound.mem
        · intro hw
          rw [hL' hw, ← Lists.merged_set hrec.le, hbud]
          funext m i
          unfold Lists.merged
          split
          · rename_i hmi
            rw [buddyOf_blockOf hmi.2.1]
          · rfl
      · rw [ht] at hq ⊢
        exact hmiss.stopMerge (hloose.quiet hq) fun w => absurd w hw
    · exact h.stopMerge hloose fun _ => rfl

theorem Quiet.mergeLoop (left : Nat) : ∀ f k s, Quiet s (State.mergeLoop n left f k s).2.2 := by
  induction left with
  | zero => exact fun _ _ s => Quiet.refl s
  | succ left ih =>
    intro f k s
    have hq := Quiet.buddyRemove (s := s) (n := n) (k := k) (b := buddy f k)
    unfold State.mergeLoop
    dsimp only
    split
    · split
      · rename_i ht
        rw [ht] at hq
        exact hq.trans (ih _ _ _)
      · rename_i ht
        rw [ht] at hq
        exact hq
    · exact Quiet.refl s

/-! ### Freeing a page -/

def NoHand : Nat → Prop := fun _ => False

structure Recounted (s t : State) (count : Nat → UInt32) : Prop where
  len : t.len = s.len
  ready : t.ready = s.ready
  live : t.live = s.live
  nodeCount : t.nodeCount = s.nodeCount
  bump : t.bump = s.bump
  bootFree : t.bootFree = s.bootFree
  refcount : ∀ g, (t.info g).refcount = count g

section
variable (h : Recounted s t count)
include h

theorem Recounted.quiet (hq : Quiet t u) : Recounted s u count :=
  ⟨hq.len.trans h.len, hq.ready.trans h.ready, hq.live.trans h.live, hq.nodeCount.trans h.nodeCount, hq.bump.trans h.bump,
    hq.bootFree.trans h.bootFree, fun g => (hq.refcount g).trans (h.refcount g)⟩

theorem Recounted.trans (h' : Recounted t u count') : Recounted s u count' :=
  ⟨h'.len.trans h.len, h'.ready.trans h.ready, h'.live.trans h.live, h'.nodeCount.trans h.nodeCount,
    h'.bump.trans h.bump, h'.bootFree.trans h.bootFree, h'.refcount⟩

theorem Recounted.congr (heq : ∀ g, count g = count' g) : Recounted s t count' :=
  (funext heq : count = count') ▸ h

end

theorem Recounted.refl (s : State) : Recounted s s fun g => (s.info g).refcount :=
  ⟨rfl, rfl, rfl, rfl, rfl, rfl, fun _ => rfl⟩

theorem Recounted.setInfo : Recounted s (s.setInfo f pi) (Function.update (fun g => (s.info g).refcount) f pi.refcount) := by
  refine ⟨rfl, rfl, rfl, rfl, rfl, rfl, fun g => ?_⟩
  by_cases hg : g = f
  · subst hg
    simp [State.setInfo]
  · simp [State.setInfo, hg]

theorem buddyFreePage_eq (hf : s.known f) : s.buddyFreePage f =
      let r := State.mergeLoop (s.info f).numaNode (MAX_ORDER - 1) f 0
        (s.setInfo f { s.info f with refcount := 0, flags := ⟨false, false⟩ })
      r.2.2.pushMerged (s.info f).numaNode r.1 r.2.1 := by
  rw [State.buddyFreePage, if_pos hf]

theorem Recounted.buddyFreePage (hf : s.known f) :
    Recounted s (s.buddyFreePage f) (Function.update (fun g => (s.info g).refcount) f 0) := by
  rw [buddyFreePage_eq hf]
  exact Recounted.setInfo.quiet ((Quiet.mergeLoop _ _ _ _).trans Quiet.pushMerged)

theorem numaNode_buddyFreePage (hf : s.known f) (g : Nat) : ((s.buddyFreePage f).info g).numaNode = (s.info g).numaNode := by
  rw [buddyFreePage_eq hf]
  refine (((Quiet.mergeLoop _ _ _ _).trans Quiet.pushMerged).numaNode g).trans (apply_update PageInfo.numaNode ?_ g)
  rfl

def Lists.freed (L : Lists) (n f j : Nat) : Lists := (L.merged n f 0 j).set n j (blockOf f j :: L n j)

theorem Merged.pushMerged {r : Nat × Nat × State} (h : Merged whole A L n f 0 r) :
    ∃ L', Inv whole A NoHand (r.2.2.pushMerged n r.1 r.2.1) L' ∧ (whole → ∃ j, j < MAX_ORDER ∧
      L' = L.freed n f j ∧ ∀ i, i < j → buddyOf f i ∈ L n i) := by
  obtain ⟨L', hinv, hL'⟩ := h.inv
  refine ⟨_, hinv.pushMerged h.loose (fun {g} => by simp [NoHand]) False.elim, fun hw => ?_⟩
  refine ⟨r.2.1, h.loose.order, ?_, fun i hi => h.linked hw i (Nat.zero_le i) hi⟩
  have hsame : L.merged n f 0 r.2.1 n r.2.1 = L n r.2.1 := if_neg fun hlt => Nat.lt_irrefl _ hlt.2.2
  rw [hL' hw, hsame, h.start]
  rfl

theorem Inv.buddyFreePage (h : Inv whole A NoHand s L) (hf : A f) (hout : ¬L.Covers f)
    (hnear : whole → Near (L (s.info f).numaNode) f 0) :
    ∃ L', Inv whole A NoHand (s.buddyFreePage f) L' ∧ (whole → ∃ j, j < MAX_ORDER ∧
      L' = L.freed (s.info f).numaNode f j ∧ ∀ i, i < j → buddyOf f i ∈ L (s.info f).numaNode i) := by
  rw [buddyFreePage_eq (h.known hf)]
  have hhand : Inv whole A (InBlock f 0) (s.setInfo f { s.info f with refcount := 0, flags := ⟨false, false⟩ }) L := by
    refine h.setInfo hout id .inr (fun _ => h.known hf) (fun _ => h.node hf) False.elim (fun hg => ?_) (fun _ => hf)
      (fun hfree => ?_) fun _ _ => .inl inBlock_self
    · exact .inl (inBlock_zero.mp hg)
    · cases hfree
  have hloose : Loose (s.setInfo f { s.info f with refcount := 0, flags := ⟨false, false⟩ })
      (s.info f).numaNode f 0 := by
    refine ⟨h.node hf, by decide, Nat.one_dvd f, fun {g} hg => ?_⟩
    rw [inBlock_zero.mp hg, info_setInfo_self]
    exact ⟨rfl, rfl⟩
  exact (hhand.mergeLoop (MAX_ORDER - 1) rfl hloose hnear).pushMerged

end

end Moxide.Pmm
