import Moxide.Lib.Keyed

/-! Maps as lists of pairs in the order of their keys, which are distinct. -/

namespace Moxide.Lib.SortedMap
open List Option
variable {κ ν : Type*} [LinearOrder κ]

/-- Sets the value at `k`; another value at `k` is replaced. -/
def insert (k : κ) (v : ν) : List (κ × ν) → List (κ × ν)
  | [] => [(k, v)]
  | (k', v') :: l =>
    if k < k' then (k, v) :: (k', v') :: l
    else if k = k' then (k, v) :: l
    else (k', v') :: insert k v l

def get (l : List (κ × ν)) (k : κ) : Option ν := (l.find? (·.1 = k)).map (·.2)

def remove (l : List (κ × ν)) (k : κ) : List (κ × ν) := l.filter (·.1 ≠ k)

def modify (k : κ) (f : ν → ν) (l : List (κ × ν)) : List (κ × ν) :=
  l.map fun p => if p.1 = k then (p.1, f p.2) else p

def Sorted (l : List (κ × ν)) : Prop := l.Pairwise fun p q => p.1 < q.1

variable {l : List (κ × ν)} {k : κ} {v : ν}

theorem mem_insert {p : κ × ν} (h : p ∈ insert k v l) : p = (k, v) ∨ p ∈ l := by
  induction l with
  | nil => exact .inl (mem_singleton.mp h)
  | cons q l ih =>
    rw [insert] at h
    split_ifs at h with hlt heq
    · exact mem_cons.mp h
    · rcases mem_cons.mp h with h | h
      · exact .inl h
      · exact .inr (mem_cons_of_mem _ h)
    · rcases mem_cons.mp h with h | h
      · exact .inr (h ▸ mem_cons_self)
      · exact (ih h).imp id (mem_cons_of_mem _)

theorem sorted_insert (h : Sorted l) : Sorted (insert k v l) := by
  induction l with
  | nil => exact pairwise_singleton _ _
  | cons q l ih =>
    obtain ⟨hhead, htail⟩ := pairwise_cons.mp h
    rw [insert]
    split_ifs with hlt heq
    · refine pairwise_cons.mpr ⟨?_, h⟩
      intro p hp
      rcases mem_cons.mp hp with rfl | hp
      · exact hlt
      · exact hlt.trans (hhead p hp)
    · exact pairwise_cons.mpr ⟨heq ▸ hhead, htail⟩
    · refine pairwise_cons.mpr ⟨?_, ih htail⟩
      intro p hp
      rcases mem_insert hp with rfl | hp
      · exact lt_of_le_of_ne (not_lt.mp hlt) (Ne.symm heq)
      · exact hhead p hp

theorem perm_insert (h : ∀ p ∈ l, p.1 ≠ k) : (insert k v l).Perm ((k, v) :: l) := by
  induction l with
  | nil => exact List.Perm.refl _
  | cons q l ih =>
    rw [insert]
    split_ifs with hlt heq
    · exact List.Perm.refl _
    · exact absurd heq.symm (h q mem_cons_self)
    · exact ((ih fun p hp => h p (mem_cons_of_mem _ hp)).cons q).trans (List.Perm.swap _ _ _)

theorem sorted_remove (h : Sorted l) : Sorted (remove l k) := h.filter _

theorem get_of_mem (hs : Sorted l) (h : (k, v) ∈ l) : get l k = some v := by
  have hnodup : (l.map Prod.fst).Nodup := by
    rw [List.Nodup, pairwise_map]
    exact List.Pairwise.imp ne_of_lt hs
  exact congrArg (Option.map Prod.snd) ((Keyed.find_eq_some_iff hnodup).mpr ⟨h, rfl⟩)

theorem get_cons {q : κ × ν} {x : κ} : get (q :: l) x = if q.1 = x then some q.2 else get l x := by
  by_cases hq : q.1 = x <;> simp [get, hq]

theorem get_insert {x : κ} : get (insert k v l) x = if x = k then some v else get l x := by
  induction l with
  | nil => simp only [insert, get_cons, eq_comm]
  | cons q l ih =>
    rw [insert]
    by_cases hlt : k < q.1
    · simp only [if_pos hlt, get_cons, eq_comm]
    rw [if_neg hlt]
    by_cases heq : k = q.1
    · rw [if_pos heq, get_cons, get_cons, ← heq]
      by_cases hx : k = x <;> simp [hx, eq_comm]
    rw [if_neg heq, get_cons, get_cons, ih]
    by_cases hq : q.1 = x
    · rw [if_pos hq, if_neg (fun h => heq (h.symm.trans hq.symm)), if_pos hq]
    · rw [if_neg hq, if_neg hq]

theorem get_remove {x : κ} : get (remove l k) x = if x = k then none else get l x := by
  rw [get, remove, find?_filter]
  split
  · rename_i hx
    rw [find?_eq_none.mpr (by simp [hx]), map_none]
  · rename_i hx
    refine congrArg _ (find?_congr fun q _ => ?_)
    by_cases hq : q.1 = x <;> simp [hq, hx]

theorem get_modify {x : κ} {f : ν → ν} : get (modify k f l) x = if x = k then (get l x).map f else get l x := by
  induction l with
  | nil => simp [get, modify]
  | cons q l ih =>
    rw [modify] at ih ⊢
    rw [map_cons, get_cons, ih, get_cons]
    by_cases hq : q.1 = k
    · rw [if_pos hq]
      by_cases hx : q.1 = x
      · subst hx
        simp [hq]
      · simp [hx]
    · rw [if_neg hq]
      by_cases hx : q.1 = x
      · subst hx
        simp [hq]
      · simp [hx]

theorem mem_of_get (h : get l k = some v) : (k, v) ∈ l := by
  obtain ⟨p, hp, rfl⟩ := map_eq_some_iff.mp h
  have hkey := find?_some hp
  rw [← of_decide_eq_true hkey]
  exact mem_of_find?_eq_some hp

/-- Removing the first of the pairs that a test on keys selects leaves the other selected ones, and all that are not
    selected. -/
theorem filter_remove {p : κ → Bool} {sel : List (κ × ν)} (hs : Sorted l) (h : l.filter (p ·.1) = (k, v) :: sel) :
    (remove l k).filter (p ·.1) = sel ∧ (remove l k).filter (!p ·.1) = l.filter (!p ·.1) := by
  have hsel : Sorted ((k, v) :: sel) := h ▸ hs.filter _
  have hk : p k := by
    have hmem : (k, v) ∈ l.filter (p ·.1) := h ▸ mem_cons_self
    exact (mem_filter.mp hmem).2
  constructor
  · have hne : ∀ q ∈ sel, decide (q.1 ≠ k) := by
      intro q hq
      exact decide_eq_true (ne_of_gt ((pairwise_cons.mp hsel).1 q hq))
    rw [remove, filter_comm, h, filter_cons_of_neg (by simp), filter_eq_self.mpr hne]
  · rw [remove, filter_comm, filter_eq_self]
    intro q hq
    refine decide_eq_true fun hqk => ?_
    have hq' := (mem_filter.mp hq).2
    rw [hqk, hk] at hq'
    cases hq'

end Moxide.Lib.SortedMap
