import Mathlib

/-! Lists of records with a key: the first record with a key, a change to it, and its removal by moving the last record to
    its position. -/

namespace Moxide.Lib.Keyed
open List Option
variable {α κ : Type*} [DecidableEq κ] (k : α → κ)

def find (l : List α) (x : κ) : Option α := l.find? (k · = x)

def modify (x : κ) (f : α → α) : List α → List α
  | [] => []
  | a :: l => if k a = x then f a :: l else a :: modify x f l

def swapRemove (l : List α) (x : κ) : List α :=
  match l.findIdx? (k · = x), l.getLast? with
  | some i, some last => (l.set i last).dropLast
  | _, _ => l

variable {k} {l : List α} {x y : κ} {a : α} {f : α → α}

theorem key_of_find (h : find k l x = some a) : k a = x := by
  have hkey := find?_some h
  exact of_decide_eq_true hkey

theorem find_eq_some_iff (hn : (l.map k).Nodup) : find k l x = some a ↔ a ∈ l ∧ k a = x := by
  constructor
  · intro h
    exact ⟨mem_of_find?_eq_some h, key_of_find h⟩
  · rintro ⟨ha, rfl⟩
    obtain ⟨b, hb⟩ : ∃ b, find k l (k a) = some b := by
      rw [← isSome_iff_exists, find, find?_isSome]
      exact ⟨a, ha, decide_eq_true rfl⟩
    rw [hb, inj_on_of_nodup_map hn (mem_of_find?_eq_some hb) ha (key_of_find hb)]

theorem erase_eq_filter [BEq α] [LawfulBEq α] (hn : (l.map k).Nodup) (ha : a ∈ l) : l.erase a = l.filter (k · ≠ k a) := by
  rw [hn.of_map.erase_eq_filter]
  refine filter_congr fun b hb => ?_
  rw [Bool.eq_iff_iff, bne_iff_ne, decide_eq_true_iff]
  exact not_congr ⟨congrArg k, fun heq => inj_on_of_nodup_map hn hb ha heq⟩

theorem find_eq_none_iff : find k l x = none ↔ x ∉ l.map k := by
  simp [find, find?_eq_none]

theorem find_append_singleton : find k (l ++ [a]) x = (find k l x).or (if k a = x then some a else none) := by
  rw [find, find?_append]
  congr 1
  by_cases h : k a = x <;> simp [h]

theorem map_modify (hf : ∀ b, k (f b) = k b) : (modify k x f l).map k = l.map k := by
  induction l with
  | nil => rfl
  | cons b l ih =>
    unfold modify
    split
    · rw [map_cons, hf, map_cons]
    · rw [map_cons, ih, map_cons]

/-- A change of one record changes what is found under its key, and nothing else. -/
theorem find_modify (hf : ∀ b, k (f b) = k b) :
    find k (modify k x f l) y = if y = x then (find k l x).map f else find k l y := by
  induction l with
  | nil => simp [find, modify]
  | cons b l ih =>
    simp only [find, find?_cons] at ih ⊢
    by_cases hb : k b = x
    · simp only [modify, hb, ↓reduceIte, find?_cons, hf, decide_true]
      by_cases hy : y = x
      · simp [hy]
      · simp [hy, Ne.symm hy]
    · by_cases hy : k b = y
      · subst hy
        simp [modify, hb]
      · simp only [modify, hb, ↓reduceIte, find?_cons, hy, decide_false]
        exact ih

theorem perm_swapRemove (h : find k l x = some a) : l.Perm (a :: swapRemove k l x) := by
  obtain ⟨hkey, l₁, l₂, rfl, hfirst⟩ := find?_eq_some_iff_append.mp h
  have hidx : (l₁ ++ a :: l₂).findIdx? (k · = x) = some l₁.length := by
    rw [findIdx?_append, findIdx?_eq_none_iff.mpr, findIdx?_cons, hkey]
    · simp
    · intro b hb
      simpa using hfirst b hb
  rcases eq_nil_or_concat l₂ with rfl | ⟨l₂', b, rfl⟩
  · simp [swapRemove, hidx]
  rw [concat_eq_append] at hidx ⊢
  have hlast : (l₁ ++ a :: (l₂' ++ [b])).getLast? = some b := by
    rw [← cons_append, ← append_assoc, getLast?_concat]
  have hswap : swapRemove k (l₁ ++ a :: (l₂' ++ [b])) x = l₁ ++ b :: l₂' := by
    simp only [swapRemove, hidx, hlast]
    rw [set_append_right _ _ (Nat.le_refl _), Nat.sub_self, set_cons_zero,
      ← cons_append, ← append_assoc, dropLast_concat]
  rw [hswap]
  refine perm_middle.trans (List.Perm.cons a (List.Perm.append_left l₁ ?_))
  exact perm_append_singleton b l₂'

theorem nodup_swapRemove (hn : (l.map k).Nodup) (h : find k l x = some a) : ((swapRemove k l x).map k).Nodup := by
  have hperm := (perm_swapRemove h).map k
  rw [hperm.nodup_iff, map_cons, nodup_cons] at hn
  exact hn.2

/-- After the removal nothing is found under the key, and what is found under other keys is as before. -/
theorem find_swapRemove (hn : (l.map k).Nodup) (h : find k l x = some a) :
    find k (swapRemove k l x) y = if y = x then none else find k l y := by
  have hperm := perm_swapRemove h
  have hkeys := hn
  rw [(hperm.map k).nodup_iff, map_cons, nodup_cons, key_of_find h] at hkeys
  split
  · rename_i hy
    rw [hy, find_eq_none_iff]
    exact hkeys.1
  rename_i hy
  ext b
  rw [find_eq_some_iff hkeys.2, find_eq_some_iff hn, hperm.mem_iff, mem_cons]
  constructor
  · rintro ⟨hb, hkb⟩
    exact ⟨.inr hb, hkb⟩
  · rintro ⟨rfl | hb, hkb⟩
    · exact absurd (hkb.symm.trans (key_of_find h)) hy
    · exact ⟨hb, hkb⟩

end Moxide.Lib.Keyed
