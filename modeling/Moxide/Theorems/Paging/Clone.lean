import Moxide.Theorems.Paging.Trees

/-! The clone of an address space, by induction on the levels of tables and on the loop over each table. -/

namespace Moxide.Paging
open Lib List Option
open Lib.Radix (walk)

/-- Of the entries in `S`, those present in `r` are copied to `c` and made copy-on-write in both. -/
structure Copied (R : Nat → Prop) (r c : Nat) (S : List Index → Prop) (mem mem' : Nat → Index → UInt64) : Prop where
  copy : ∀ {x q j}, (x = r ∨ x = c) → q.length = 3 → S (q ++ [j]) → leaf mem r q j &&& PTE_PRESENT ≠ 0 →
    leaf mem' x q j = cowEntry (leaf mem r q j)
  keep : ∀ {x q j}, R x → q.length = 3 → ¬((x = r ∨ x = c) ∧ S (q ++ [j]) ∧ leaf mem r q j &&& PTE_PRESENT ≠ 0) →
    leaf mem' x q j = leaf mem x q j

/-- Besides, only `c` gets tables, on paths in `S`. -/
structure Cloned (lay : Pmm.Layout) (node : Nat) (R : Nat → Prop) (r c : Nat) (S : List Index → Prop)
    (m m' : Machine) : Prop where
  trees : Trees lay node m' R
  grows : Grows lay node R R m m'
  copied : Copied R r c S m.mem m'.mem
  walk : ∀ {x q}, R x → q.length ≤ 3 → ¬(x = c ∧ S q) → walk nextTable m'.mem x q = walk nextTable m.mem x q

section
variable {lay : Pmm.Layout} {m m' m'' : Machine} {R : Nat → Prop} {node : Nat} {j : Index}
  {inner : Nat → Nat → Machine → Option Machine}
variable {r c parent child : Nat} {p q : List Index} {i : Index} {S S' : List Index → Prop}

variable {mem mem' : Nat → Index → UInt64}

section
variable (h : Copied R r c S mem mem')
include h

theorem Copied.congr (hS : ∀ q j, q.length = 3 → (S' (q ++ [j]) ↔ S (q ++ [j]))) : Copied R r c S' mem mem' where
  copy hx hq hin := h.copy hx hq ((hS _ _ hq).mp hin)
  keep hx hq hnot := h.keep hx hq fun ⟨hside, hin, hpresent⟩ => hnot ⟨hside, (hS _ _ hq).mpr hin, hpresent⟩

theorem Copied.source (hr : R r) (hq : q.length = 3) :
    leaf mem' r q i &&& PTE_PRESENT = leaf mem r q i &&& PTE_PRESENT ∧
    cowEntry (leaf mem' r q i) = cowEntry (leaf mem r q i) := by
  by_cases hin : S (q ++ [i]) ∧ leaf mem r q i &&& PTE_PRESENT ≠ 0
  · rw [h.copy (.inl rfl) hq hin.1 hin.2]
    exact ⟨cowEntry_present _, cowEntry_cowEntry _⟩
  · rw [h.keep hr hq fun hall => hin hall.2]
    exact ⟨rfl, rfl⟩

theorem Copied.trans {mem'' : Nat → Index → UInt64} (h' : Copied R r c S' mem' mem'')
    (hr : R r) (hc : R c) : Copied R r c (fun v => S v ∨ S' v) mem mem'' := by
  refine ⟨fun {x q j} hx hq hin hpresent => ?_, fun {x q j} hx hq hnot => ?_⟩
  · have hR : R x := by
      rcases hx with rfl | rfl
      · exact hr
      · exact hc
    obtain ⟨hsame, hcow⟩ := h.source hr hq (i := j)
    by_cases hin' : S' (q ++ [j])
    · rw [h'.copy hx hq hin' (by rw [hsame]; exact hpresent), hcow]
    · rw [h'.keep hR hq fun hall => hin' hall.2.1]
      exact h.copy hx hq (hin.resolve_right hin') hpresent
  · obtain ⟨hsame, -⟩ := h.source hr hq (i := j)
    rw [h'.keep hx hq, h.keep hx hq]
    · exact fun ⟨hside, hin, hpresent⟩ => hnot ⟨hside, .inl hin, hpresent⟩
    · exact fun ⟨hside, hin, hpresent⟩ => hnot ⟨hside, .inr hin, hsame ▸ hpresent⟩

end

theorem Same.copied (h : Same R mem mem') : Copied R r c (fun _ => False) mem mem' :=
  ⟨fun _ _ => False.elim, fun hx hq _ => h _ _ _ hx hq⟩

theorem Cloned.trans (h : Cloned lay node R r c S m m') (h' : Cloned lay node R r c S' m' m'') (hr : R r) (hc : R c) :
    Cloned lay node R r c (fun v => S v ∨ S' v) m m'' :=
  ⟨h'.trees, h.grows.trans h'.grows, h.copied.trans h'.copied hr hc, fun hx hq hnot =>
    (h'.walk hx hq fun hat => hnot ⟨hat.1, .inr hat.2⟩).trans (h.walk hx hq fun hat => hnot ⟨hat.1, .inl hat.2⟩)⟩

theorem Cloned.congr (h : Cloned lay node R r c S m m') (hS : ∀ v, S' v ↔ S v) : Cloned lay node R r c S' m m' :=
  ⟨h.trees, h.grows, h.copied.congr fun q j _ => hS (q ++ [j]), fun hx hq hnot =>
    h.walk hx hq fun hat => hnot ⟨hat.1, (hS _).mpr hat.2⟩⟩

theorem snoc_prefix_snoc (hlen : p.length = q.length) : p ++ [i] <+: q ++ [j] ↔ q = p ∧ j = i := by
  constructor
  · intro hpre
    have heq := hpre.eq_of_length (by simp [hlen])
    obtain ⟨hq, hj⟩ := append_inj heq hlen
    exact ⟨hq.symm, (singleton_inj.mp hj).symm⟩
  · rintro ⟨rfl, rfl⟩
    exact prefix_rfl

/-- One entry of a last table. -/
theorem Trees.cloneLeaf (h : Trees lay node m R) (hr : R r) (hc : R c) (hp : p.length = 3)
    (hparent : walk nextTable m.mem r p = some parent) (hchild : walk nextTable m.mem c p = some child) :
    Cloned lay node R r c (fun v => p ++ [i] <+: v) m (Machine.cloneLeaf parent child m i) := by
  have he : leaf m.mem r p i = m.mem parent i := leaf_eq hparent
  unfold Machine.cloneLeaf
  dsimp only
  rw [← he]
  split
  · rename_i habsent
    refine ⟨h, .refl, ⟨fun hx hq hin hpresent => ?_, fun _ _ _ => rfl⟩, fun _ _ _ => rfl⟩
    obtain ⟨rfl, rfl⟩ := (snoc_prefix_snoc (hp.trans hq.symm)).mp hin
    exact absurd habsent hpresent
  rename_i hpresent
  obtain ⟨u, hu, hset, hpmm, hupd, hwalk, hnode⟩ : ∃ u, (if leaf m.mem r p i &&& PTE_WRITABLE ≠ 0 then
      m.set parent i (cowEntry (leaf m.mem r p i)) else m) = u ∧ Trees lay node u R ∧ u.pmm = m.pmm ∧
      Updated R r p i (cowEntry (leaf m.mem r p i)) m.mem u.mem ∧
      (∀ {x q}, R x → q.length ≤ 3 → walk nextTable u.mem x q = walk nextTable m.mem x q) ∧
      ∀ g, Table u.mem R g ↔ Table m.mem R g := by
    refine ⟨_, rfl, ?_⟩
    split
    · obtain ⟨hset, hrest⟩ := h.setLeaf hr hp hparent
      exact ⟨hset, rfl, hrest⟩
    rename_i hread
    refine ⟨h, rfl, fun x q j hx hq => ?_, fun _ _ => rfl, fun _ => Iff.rfl⟩
    split
    · rename_i hat
      obtain ⟨rfl, rfl, rfl⟩ := hat
      rw [cowEntry, if_neg hread]
    · rfl
  rw [hu]
  obtain ⟨hset', hupd', hwalk', hnode'⟩ := hset.setLeaf (i := i) hc hp ((hwalk hc (le_of_eq hp)).trans hchild)
  refine ⟨hset', .of_table hpmm fun ht => (hnode _).mp ((hnode' _).mp ht), ⟨fun {x q j} hx hq hin _ => ?_,
    fun {x q j} hx hq hnot => ?_⟩, fun hx hq _ => (hwalk' hx hq).trans (hwalk hx hq)⟩
  · obtain ⟨rfl, rfl⟩ := (snoc_prefix_snoc (hp.trans hq.symm)).mp hin
    rcases hx with rfl | rfl
    · rw [hupd' x q j hr hq, hupd x q j hr hq]
      simp
    · rw [hupd' x q j hc hq]
      simp
  · have hat : ∀ {y}, (y = r ∨ y = c) → ¬(x = y ∧ q = p ∧ j = i) := by
      rintro y hy ⟨rfl, rfl, rfl⟩
      exact hnot ⟨hy, prefix_rfl, hpresent⟩
    rw [hupd' x q j hx hq, if_neg (hat (.inr rfl)), hupd x q j hx hq, if_neg (hat (.inl rfl))]

theorem Trees.cloneLeaves (hr : R r) (hc : R c) (hp : p.length = 3) (is : List Index) : ∀ {m}, Trees lay node m R →
    walk nextTable m.mem r p = some parent → walk nextTable m.mem c p = some child →
    Cloned lay node R r c (fun v => ∃ i ∈ is, p ++ [i] <+: v) m (is.foldl (Machine.cloneLeaf parent child) m) := by
  induction is with
  | nil =>
    intro m h _ _
    exact ⟨h, .refl, ⟨fun _ _ hin => by simp at hin, fun _ _ _ => rfl⟩, fun _ _ _ => rfl⟩
  | cons i is ih =>
    intro m h hparent hchild
    have hone := h.cloneLeaf (i := i) hr hc hp hparent hchild
    have hwalk : ∀ {x}, R x → walk nextTable (Machine.cloneLeaf parent child m i).mem x p = walk nextTable m.mem x p :=
      fun hx => hone.walk hx (le_of_eq hp) fun hat => Radix.not_append_isPrefix hat.2
    have hrest := ih hone.trees ((hwalk hr).trans hparent) ((hwalk hc).trans hchild)
    exact (hone.trans hrest hr hc).congr fun v => by simp

theorem prefix_snoc_iff (hlen : p.length ≤ q.length) : p <+: q ++ [j] ↔ ∃ k, p ++ [k] <+: q ++ [j] := by
  constructor
  · rintro ⟨s, hs⟩
    cases s with
    | nil =>
      have hlen' := congrArg List.length hs
      rw [append_nil, length_append, length_singleton] at hlen'
      omega
    | cons k s => exact ⟨k, s, by rw [append_assoc]; exact hs⟩
  · rintro ⟨k, hpre⟩
    exact (prefix_append p [k]).trans hpre

theorem nextTable_some {e : UInt64} {f : Nat} (h : nextTable e = some f) : frameOf e = f := by
  unfold nextTable at h
  split at h
  · cases h
  · exact some.inj h

/-- One entry of an upper table, given what the levels below do. -/
theorem Trees.cloneEntry (h : Trees lay node m R) (hr : R r) (hc : R c) (hrc : r ≠ c) (hp : p.length < 3)
    (hparent : walk nextTable m.mem r p = some parent) (hchild : walk nextTable m.mem c p = some child)
    (hnone : walk nextTable m.mem c (p ++ [i]) = none)
    (hinner : ∀ {m m' parent child}, Trees lay node m R → walk nextTable m.mem r (p ++ [i]) = some parent →
      walk nextTable m.mem c (p ++ [i]) = some child → (∀ j, walk nextTable m.mem c (p ++ [i] ++ [j]) = none) →
      inner parent child m = some m' → Cloned lay node R r c (fun v => ∃ j, p ++ [i] ++ [j] <+: v) m m')
    (hm : Machine.cloneEntry lay node inner parent child m i = some m') :
    Cloned lay node R r c (fun v => p ++ [i] <+: v) m m' := by
  have hlen : (p ++ [i]).length ≤ 3 := by
    rw [length_append]
    exact hp
  unfold Machine.cloneEntry at hm
  split at hm
  · rename_i habsent
    cases hm
    refine ⟨h, .refl, ⟨fun {x q j} hx hq hin hpresent => ?_, fun _ _ _ => rfl⟩, fun _ _ _ => rfl⟩
    -- no page of the parent is behind a missing table
    obtain ⟨s, rfl⟩ := prefix_of_prefix_length_le hin (prefix_append q [j]) (by omega)
    rw [leaf_none (Radix.walk_of_none hparent (nextTable_eq_none.mpr habsent) s)] at hpresent
    exact absurd (by decide) hpresent
  rename_i hpresent
  obtain ⟨⟨f, u⟩, hu, hm⟩ := bind_eq_some_iff.mp hm
  have hempty : nextTable (m.mem child i) = none := by
    rw [Radix.walk_snoc, hchild] at hnone
    exact hnone
  obtain ⟨h₁, hgrows, hsame, -, hself, hdeep, hwalk⟩ := h.fill hc hp hchild hempty hu
  have hbelow : walk nextTable (u.set child i (tableEntry f)).mem r (p ++ [i]) = some (frameOf (m.mem parent i)) := by
    rw [hwalk hr hlen fun hat => hrc hat.1, Radix.walk_snoc, hparent, bind_some, nextTable, if_neg hpresent]
  have hframe : frameOf ((u.set child i (tableEntry f)).mem parent i) = frameOf (m.mem parent i) := by
    have hstep := hbelow
    rw [Radix.walk_snoc, hwalk hr (le_of_lt hp) fun hat => hrc hat.1, hparent] at hstep
    exact nextTable_some hstep
  dsimp only at hm
  rw [hframe] at hm
  have hcloned := hinner h₁ hbelow hself (fun j => hdeep (cons_ne_nil j [])) hm
  have hcopied : Copied R r c (fun v => p ++ [i] <+: v) m.mem m'.mem :=
    (hsame.copied.trans hcloned.copied hr hc).congr fun q j hq => by
      rw [false_or]
      exact prefix_snoc_iff (by omega)
  refine ⟨hcloned.trees, hgrows.trans hcloned.grows, hcopied, fun hx hq hnot => ?_⟩
  rw [hcloned.walk hx hq, hwalk hx hq hnot]
  rintro ⟨hxc, j, hpre⟩
  exact hnot ⟨hxc, (prefix_append _ [j]).trans hpre⟩

theorem Trees.cloneEntries (hr : R r) (hc : R c) (hrc : r ≠ c) (hp : p.length < 3)
    (hinner : ∀ {m m' parent child i}, Trees lay node m R → walk nextTable m.mem r (p ++ [i]) = some parent →
      walk nextTable m.mem c (p ++ [i]) = some child → (∀ j, walk nextTable m.mem c (p ++ [i] ++ [j]) = none) →
      inner parent child m = some m' → Cloned lay node R r c (fun v => ∃ j, p ++ [i] ++ [j] <+: v) m m')
    (is : List Index) : ∀ {m}, is.Nodup → Trees lay node m R → walk nextTable m.mem r p = some parent →
      walk nextTable m.mem c p = some child → (∀ i ∈ is, walk nextTable m.mem c (p ++ [i]) = none) →
      is.foldlM (Machine.cloneEntry lay node inner parent child) m = some m' →
      Cloned lay node R r c (fun v => ∃ i ∈ is, p ++ [i] <+: v) m m' := by
  induction is with
  | nil =>
    intro m _ h _ _ _ hm
    cases hm
    exact ⟨h, .refl, ⟨fun _ _ hin => by simp at hin, fun _ _ _ => rfl⟩, fun _ _ _ => rfl⟩
  | cons i is ih =>
    intro m hnodup h hparent hchild hnone hm
    obtain ⟨u, hu, hm⟩ := bind_eq_some_iff.mp hm
    have hone := h.cloneEntry hr hc hrc hp hparent hchild (hnone i mem_cons_self) hinner hu
    have hwalk : ∀ {x}, R x → walk nextTable u.mem x p = walk nextTable m.mem x p :=
      fun hx => hone.walk hx (le_of_lt hp) fun hat => Radix.not_append_isPrefix hat.2
    have hnone' : ∀ k ∈ is, walk nextTable u.mem c (p ++ [k]) = none := by
      intro k hk
      rw [hone.walk hc (by rw [length_append, length_singleton]; exact hp), hnone k (mem_cons_of_mem i hk)]
      rintro ⟨-, hpre⟩
      obtain ⟨-, rfl⟩ := (snoc_prefix_snoc rfl).mp hpre
      exact (nodup_cons.mp hnodup).1 hk
    have hrest := ih (nodup_cons.mp hnodup).2 hone.trees ((hwalk hr).trans hparent) ((hwalk hc).trans hchild) hnone' hm
    exact (hone.trans hrest hr hc).congr fun v => by simp

/-- The tables of a level and below. -/
theorem Trees.cloneLevel (hr : R r) (hc : R c) (hrc : r ≠ c) (level : Nat) : ∀ {m m' parent child p}, Trees lay node m R →
    p.length + level = 3 → walk nextTable m.mem r p = some parent → walk nextTable m.mem c p = some child →
    (∀ i, walk nextTable m.mem c (p ++ [i]) = none) → Machine.cloneLevel lay node level parent child m = some m' →
    Cloned lay node R r c (fun v => ∃ i, p ++ [i] <+: v) m m' := by
  induction level with
  | zero =>
    intro m m' parent child p h hlen hparent hchild _ hm
    obtain rfl := some.inj hm
    exact (h.cloneLeaves hr hc hlen (List.finRange 512) hparent hchild).congr fun v => by simp
  | succ level ih =>
    intro m m' parent child p h hlen hparent hchild hnone hm
    have hp : p.length < 3 := by omega
    have hcloned := Trees.cloneEntries hr hc hrc hp
      (fun {m m' parent child i} h hparent hchild hnone hm => ih h (p := p ++ [i])
        (by rw [length_append, length_singleton]; omega) hparent hchild hnone hm)
      (List.finRange 512) (nodup_finRange 512) h hparent hchild (fun i _ => hnone i) hm
    exact hcloned.congr fun v => by simp

theorem Trees.clonePml4Cow (h : Trees lay node m R) {cr3 cr3' : UInt64} (hr : R (cr3.toNat / 4096))
    (hm : m.clonePml4Cow lay node cr3 = some (cr3', m')) :
    Trees lay node m' (fun x => R x ∨ x = cr3'.toNat / 4096) ∧ ¬R (cr3'.toNat / 4096) ∧
      Grows lay node R (fun x => R x ∨ x = cr3'.toNat / 4096) m m' ∧
      (∀ {x q j}, R x → q.length = 3 → leaf m'.mem x q j =
        if x = cr3.toNat / 4096 ∧ leaf m.mem x q j &&& PTE_PRESENT ≠ 0 then cowEntry (leaf m.mem x q j)
        else leaf m.mem x q j) ∧
      (∀ {q j}, q.length = 3 → leaf m'.mem (cr3'.toNat / 4096) q j =
        if leaf m.mem (cr3.toNat / 4096) q j &&& PTE_PRESENT ≠ 0 then cowEntry (leaf m.mem (cr3.toNat / 4096) q j) else 0) ∧
      ∀ {x q}, R x → q.length ≤ 3 → walk nextTable m'.mem x q = walk nextTable m.mem x q := by
  obtain ⟨⟨f, u⟩, hu, hm⟩ := bind_eq_some_iff.mp hm
  obtain ⟨v, hv, heq⟩ := map_eq_some_iff.mp hm
  obtain ⟨rfl, rfl⟩ := Prod.mk.inj heq
  obtain ⟨hf, htakes, hout⟩ := h.allocTable hu
  rw [addrOf_div hf.lt]
  have hnew : ¬R f := fun hR => hf.fresh.new ⟨f, [], hR, Nat.zero_le 3, rfl⟩
  have hne : cr3.toNat / 4096 ≠ f := fun heq => hnew (heq ▸ hr)
  have hbare : ∀ {q}, q ≠ [] → walk nextTable u.mem f q = none := fun hq => Radix.walk_bare hf.fresh.bare hq
  have hsame := Same.outside hout
  have hcloned := Trees.cloneLevel (p := []) (.inl hr) (.inr rfl) hne 3 hf.addRoot rfl rfl rfl
    (fun i => hbare (cons_ne_nil i [])) hv
  have hin : ∀ {q : List Index} {j}, q.length = 3 → ∃ i, [] ++ [i] <+: q ++ [j] := by
    intro q j hq
    cases q with
    | nil => cases hq
    | cons i q => exact ⟨i, by simp⟩
  have hgrows : Grows lay node R (fun x => R x ∨ x = f) m u := by
    refine ⟨[f], htakes, fun {g} hg => ?_⟩
    exact ((Radix.node_addRoot hf.fresh).mp hg).imp (Radix.node_outside hout).mp mem_singleton.mpr
  refine ⟨hcloned.trees, hnew, hgrows.trans hcloned.grows, fun {x q j} hx hq => ?_, fun {q j} hq => ?_,
    fun {x q} hx hq => ?_⟩
  · split
    · rename_i hat
      obtain ⟨rfl, hpresent⟩ := hat
      rw [← hsame _ q j hr hq] at hpresent ⊢
      exact hcloned.copied.copy (.inl rfl) hq (hin hq) hpresent
    rename_i hat
    rw [hcloned.copied.keep (.inl hx) hq, hsame x q j hx hq]
    rintro ⟨rfl | rfl, -, hpresent⟩
    · rw [hsame _ q j hr hq] at hpresent
      exact hat ⟨rfl, hpresent⟩
    · exact hnew hx
  · rw [← hsame _ q j hr hq]
    split
    · rename_i hpresent
      exact hcloned.copied.copy (.inr rfl) hq (hin hq) hpresent
    rename_i habsent
    rw [hcloned.copied.keep (.inr rfl) hq fun hat => habsent hat.2.2]
    refine leaf_none (hbare ?_)
    rintro rfl
    cases hq
  · rw [hcloned.walk (.inl hx) hq, Radix.walk_outside hout hx hq]
    rintro ⟨rfl, -⟩
    exact hnew hx

end

end Moxide.Paging
